import Dagron.Store.Ingest
import Dagron.Store.Progress

/-! A run is made with all that comes of it or not at all, and every idempotency key, every dead
letter and, while shards are read by those who lease them, every position makes one run at most.
-/

namespace Dagron.Store

open Dagron.Library Dagron.Spec

-- Whole or not at all

def IdempotencyClaim.row (claim : IdempotencyClaim) : String × String :=
  (claim.principal, claim.key)

/-- All that comes of a request is written: its run with all tasks and dependencies, which was
not there before, its position, its key's answer, and the dead letter is gone; every other
position, key and dead letter stays, and so do the leases.
-/
structure Written (now : Time) (request : RunRequest) (store : Db) (ledger : Ledger) (store' : Db)
    (ledger' : Ledger) : Prop where
  run
    : store.run? request.submission.run = none ∧ (store'.run? request.submission.run).isSome
  tasks
    : ∃ dag heldBy, runGraph store request.submission = .ok dag
      ∧ (∀ seat ∈ seatsOf dag request.submission.mint,
          store'.task? seat.id = some (rowOf dag request.submission.run now heldBy seat))
      ∧ ∀ row ∈ depRowsOf dag (seatsOf dag request.submission.mint), row ∈ store'.deps
  offset
    : ∀ offset, request.offset = some offset →
      ledger'.offsets.get? offset.1 = some ⟨offset.1, offset.2, now⟩
  offsets
    : ∀ name, (∀ offset, request.offset = some offset → name ≠ offset.1) →
      ledger'.offsets.get? name = ledger.offsets.get? name
  claim
    : ∀ claim, request.claim = some claim →
      ∃ row, ledger.idempotency.get? claim.row = some row ∧ row.runId = none
        ∧ row.createdAt = claim.claimedAt
        ∧ ledger'.idempotency.get? claim.row
          = some { row with runId := some request.submission.run }
  claims
    : ∀ key, (∀ claim, request.claim = some claim → key ≠ claim.row) →
      ledger'.idempotency.get? key = ledger.idempotency.get? key
  deadLetter
    : ∀ id, request.deadLetter = some id →
      (ledger.deadLetters.get? id).isSome ∧ ledger'.deadLetters.get? id = none
  deadLetters
    : ∀ id, request.deadLetter ≠ some id →
      ledger'.deadLetters.get? id = ledger.deadLetters.get? id
  partitions
    : ledger'.partitions = ledger.partitions

theorem Ledger.offsets_upsertSourceOffset (now : Time) (offset : String × Nat) (ledger : Ledger)
    (name : String)
    : (ledger.upsertSourceOffset now offset).offsets.get? name
      = if name = offset.1 then some ⟨name, offset.2, now⟩ else ledger.offsets.get? name := by
  have keeps (row : SourceOffset)
      : Keyed.key { row with position := offset.2, updatedAt := now } = Keyed.key row := rfl
  refine (@Table.get?_upsert _ _ _ _ ledger.offsets ⟨offset.1, offset.2, now⟩ _ keeps name).trans ?_
  by_cases here : name = offset.1
  · subst here
    cases found : ledger.offsets.get? offset.1 with
    | none => simp [Keyed.key]
    | some row =>
        have named : row.sourceName = offset.1 := Table.key_of_get? found
        simp [Keyed.key, named]
  · simp [Keyed.key, here]

@[simp]
theorem Ledger.commitOffset_others (now : Time) (offset : Option (String × Nat)) (ledger : Ledger)
    : (ledger.commitOffset now offset).idempotency = ledger.idempotency
      ∧ (ledger.commitOffset now offset).deadLetters = ledger.deadLetters
      ∧ (ledger.commitOffset now offset).partitions = ledger.partitions := by
  cases offset <;> exact ⟨rfl, rfl, rfl⟩

theorem Ledger.row_of_holdClaim {claim : IdempotencyClaim} {ledger : Ledger}
    (held : ledger.idempotency.count claim.isHeldBy = 1)
    : ∃ row, ledger.idempotency.get? claim.row = some row ∧ row.runId = none
      ∧ row.createdAt = claim.claimedAt := by
  have some_ : 0 < ledger.idempotency.count claim.isHeldBy := by omega
  obtain ⟨row, present, met⟩ := List.countP_pos_iff.mp some_
  obtain ⟨principal, key, free, at_⟩ := of_decide_eq_true met
  refine ⟨row, ?_, Option.isNone_iff_eq_none.mp free, at_⟩
  have same : Keyed.key row = claim.row := Prod.ext principal key
  exact same ▸ Table.get?_of_mem present

theorem Ledger.resolveClaim_spec {run : Nat} {claim : Option IdempotencyClaim}
    {ledger ledger' : Ledger} (done : ledger.resolveClaim run claim = .ok ledger')
    : (∀ own, claim = some own →
        ∃ row, ledger.idempotency.get? own.row = some row ∧ row.runId = none
          ∧ row.createdAt = own.claimedAt
          ∧ ledger'.idempotency.get? own.row = some { row with runId := some run })
      ∧ (∀ key, (∀ own, claim = some own → key ≠ own.row) →
        ledger'.idempotency.get? key = ledger.idempotency.get? key)
      ∧ ledger'.deadLetters = ledger.deadLetters ∧ ledger'.offsets = ledger.offsets
      ∧ ledger'.partitions = ledger.partitions := by
  cases claim with
  | none =>
      cases done
      exact ⟨nofun, fun _ _ => rfl, rfl, rfl, rfl⟩
  | some claim =>
      simp only [Ledger.resolveClaim] at done
      split at done
      next => cases done
      next one =>
        cases done
        have keeps (row : IdempotencyRow)
            : Keyed.key { row with runId := some run } = Keyed.key row := rfl
        have reads (key : String × String) :=
          @Table.get?_update _ _ _ _ ledger.idempotency claim.isHeldBy _ _ keeps key
        refine ⟨?_, ?_, rfl, rfl, rfl⟩
        · rintro own ⟨⟩
          obtain ⟨row, found, free, at_⟩ := Ledger.row_of_holdClaim (Decidable.not_not.mp one)
          have named : (row.principal, row.idempotencyKey) = claim.row := Table.key_of_get? found
          have held : claim.isHeldBy row :=
            ⟨congrArg Prod.fst named, congrArg Prod.snd named, by simp [free], at_⟩
          refine ⟨row, found, free, at_, (reads _).trans ?_⟩
          rw [found, Option.map_some, if_pos held]
        · intro key apart
          refine (reads key).trans ?_
          cases found : ledger.idempotency.get? key with
          | none => rfl
          | some row =>
              have named : (row.principal, row.idempotencyKey) = key := Table.key_of_get? found
              have other : ¬ claim.isHeldBy row := by
                rintro ⟨principal, held, _⟩
                exact apart claim rfl (named.symm.trans (Prod.ext principal held))
              rw [Option.map_some, if_neg other]

theorem Ledger.takeDeadLetter_spec {deadLetter : Option Nat} {ledger ledger' : Ledger}
    (done : ledger.takeDeadLetter deadLetter = .ok ledger')
    : (∀ id, deadLetter = some id →
        (ledger.deadLetters.get? id).isSome ∧ ledger'.deadLetters.get? id = none)
      ∧ (∀ id, deadLetter ≠ some id → ledger'.deadLetters.get? id = ledger.deadLetters.get? id)
      ∧ ledger'.idempotency = ledger.idempotency ∧ ledger'.offsets = ledger.offsets
      ∧ ledger'.partitions = ledger.partitions := by
  cases deadLetter with
  | none =>
      cases done
      exact ⟨nofun, fun _ _ => rfl, rfl, rfl, rfl⟩
  | some letter =>
      simp only [Ledger.takeDeadLetter] at done
      split at done
      next => cases done
      next present =>
        cases done
        refine ⟨?_, ?_, rfl, rfl, rfl⟩
        · rintro id ⟨⟩
          obtain ⟨row, member, met⟩ := List.countP_pos_iff.mp (Nat.pos_of_ne_zero present)
          have named : row.id = letter := of_decide_eq_true met
          have found : ledger.deadLetters.get? letter = some row :=
            named ▸ Table.get?_of_mem member
          refine ⟨by simp [found], ?_⟩
          dsimp only
          rw [Table.get?_delete, found]
          simp [named]
        · intro id apart
          dsimp only
          rw [Table.get?_delete]
          cases found : ledger.deadLetters.get? id with
          | none => rfl
          | some row =>
              have named : row.id = id := Table.key_of_get? found
              have other : row.id ≠ letter := by
                rintro rfl
                exact apart (congrArg some named)
              simp [other]

theorem written_of_createRunFull {env : Env} {now : Time} {request : RunRequest}
    {store store' : Db} {ledger ledger' : Ledger}
    (done : createRunFull env now request store ledger = .ok (store', ledger'))
    : Written now request store ledger store' ledger' := by
  unfold createRunFull at done
  obtain ⟨_, _, done⟩ := exists_of_bind_eq_ok done
  obtain ⟨_, held, done⟩ := exists_of_bind_eq_ok done
  obtain ⟨taken, took, done⟩ := exists_of_bind_eq_ok done
  obtain ⟨made, creates, done⟩ := exists_of_bind_eq_ok done
  obtain ⟨resolved, resolves, done⟩ := exists_of_bind_eq_ok done
  cases done
  have created := ok_of_mapError creates
  obtain ⟨mine, elsewhere, letters, offsets, leases⟩ := Ledger.resolveClaim_spec resolves
  obtain ⟨gone, left, claims, offsets', leases'⟩ := Ledger.takeDeadLetter_spec took
  obtain ⟨keys, letters', leases''⟩ := taken.commitOffset_others now request.offset
  have same : (taken.commitOffset now request.offset).idempotency = ledger.idempotency :=
    keys.trans claims
  obtain ⟨dag, admitted, row, graph, rfl, ⟨waits, deadlineAt, alertDeadlineAt, rfl, _⟩, inserted⟩ :=
    createRun_ok env now created
  obtain ⟨heldBy, _, runs, tasks, deps, _⟩ := insertRun_eq_some inserted
  obtain ⟨free, reads⟩ := Table.get?_insert runs
  rw [same] at mine elsewhere
  exact {
    run := by
      refine ⟨?_, ?_⟩
      · by_contra there
        obtain ⟨row, was⟩ := Option.ne_none_iff_exists'.mp there
        obtain ⟨row', is, _⟩ := (runMoves_weigh env now store dag.spec request.submission.trigger
          request.submission.run).of_some was
        have none_ : (weigh env now dag.spec request.submission.trigger request.submission.run
          store).1.run? request.submission.run = none := free
        rw [none_] at is
        cases is
      · have found : store'.run? request.submission.run = _ := reads request.submission.run
        rw [found]
        simp [Keyed.key, runRowOf]
    tasks := ⟨dag, heldBy, graph, fun seat among =>
      Table.get?_of_mem_insertAll tasks (List.mem_map_of_mem among), fun row among =>
        Table.mem_of_get? (Table.get?_of_mem_insertAll deps among)⟩
    offset := by
      intro offset comes
      rw [offsets, comes]
      exact (Ledger.offsets_upsertSourceOffset ..).trans (if_pos rfl)
    offsets := by
      intro name apart
      rw [offsets, ← offsets']
      cases comes : request.offset with
      | none => rfl
      | some offset => exact (Ledger.offsets_upsertSourceOffset ..).trans (if_neg (apart offset comes))
    claim := mine
    claims := elsewhere
    deadLetter := by
      intro id comes
      rw [letters, letters']
      exact gone id comes
    deadLetters := by
      intro id apart
      rw [letters, letters']
      exact left id apart
    partitions := leases.trans (leases''.trans leases')
  }

-- Steps

/-- A step that makes the run of a request. -/
structure IngestWorld.Makes (now : Time) (request : RunRequest) (before after : IngestWorld)
    : Prop where
  made
    : after.made = request :: before.made
  parked
    : after.parked = before.parked
  letters
    : after.letters = before.letters
  written
    : Written now request before.engine.db before.ledger after.engine.db after.ledger

/-- A step that makes no run by request. No key is answered and no answer is lost, only a letter
that is new is there that was not, and a position is committed with a letter or not at all.
-/
structure IngestWorld.Keeps (before after : IngestWorld) : Prop where
  made
    : after.made = before.made
  answers
    : ∀ key row, row.runId.isSome = true →
      (after.ledger.idempotency.get? key = some row
        ↔ before.ledger.idempotency.get? key = some row)
  letters
    : ∀ id, (after.ledger.deadLetters.get? id).isSome = true →
      (before.ledger.deadLetters.get? id).isSome = true ∨ before.letters = id ∧ id < after.letters
  minted
    : before.letters ≤ after.letters
  positions
    : (after.parked = before.parked ∧ after.ledger.offsets = before.ledger.offsets)
      ∨ ∃ now place, after.parked = place :: before.parked
        ∧ (after.ledger.deadLetters.get? before.letters).isSome = true
        ∧ ∀ name, after.ledger.offsets.get? name
          = if name = place.1 then some ⟨name, place.2, now⟩ else before.ledger.offsets.get? name

theorem IngestWorld.Keeps.of_eq {before after : IngestWorld} (made : after.made = before.made)
    (parked : after.parked = before.parked) (letters : after.letters = before.letters)
    (idempotency : after.ledger.idempotency = before.ledger.idempotency)
    (deadLetters : after.ledger.deadLetters = before.ledger.deadLetters)
    (offsets : after.ledger.offsets = before.ledger.offsets)
    : before.Keeps after where
  made := made
  answers _ _ _ := by rw [idempotency]
  letters _ there := Or.inl (deadLetters ▸ there)
  minted := Nat.le_of_eq letters.symm
  positions := Or.inl ⟨parked, offsets⟩

theorem Ledger.answers_claimIdempotencyKey {now : Time} {principal key fingerprint : String}
    {ledger ledger' : Ledger}
    (done : ledger.claimIdempotencyKey now principal key fingerprint = some ledger')
    (place : String × String) (row : IdempotencyRow) (answered : row.runId.isSome = true)
    : ledger'.idempotency.get? place = some row ↔ ledger.idempotency.get? place = some row := by
  simp only [Ledger.claimIdempotencyKey] at done
  split at done
  next idempotency inserted =>
    cases done
    obtain ⟨free, reads⟩ := Table.get?_insert inserted
    dsimp only
    rw [reads]
    split
    next here =>
      rw [here, free]
      constructor
      · rintro ⟨⟩
        cases answered
      · rintro ⟨⟩
    next => rfl
  next =>
    split at done
    next => cases done
    next =>
      cases done
      have keeps (row : IdempotencyRow)
          : Keyed.key { row with fingerprint := fingerprint, createdAt := now } = Keyed.key row := rfl
      dsimp only
      rw [Table.get?_update keeps]
      cases found : ledger.idempotency.get? place with
      | none => simp
      | some old =>
          rw [Option.map_some]
          split
          next stale =>
            have free := stale.2.2.1
            constructor
            · rintro ⟨⟩
              simp_all
            · rintro ⟨⟩
              simp_all
          next => rfl

theorem Ledger.others_claimIdempotencyKey {now : Time} {principal key fingerprint : String}
    {ledger ledger' : Ledger}
    (done : ledger.claimIdempotencyKey now principal key fingerprint = some ledger')
    : ledger'.deadLetters = ledger.deadLetters ∧ ledger'.offsets = ledger.offsets
      ∧ ledger'.partitions = ledger.partitions := by
  simp only [Ledger.claimIdempotencyKey] at done
  split at done
  · cases done
    exact ⟨rfl, rfl, rfl⟩
  · split at done
    · cases done
    · cases done
      exact ⟨rfl, rfl, rfl⟩

theorem Ledger.answers_releaseIdempotencyClaim (claim : IdempotencyClaim) (ledger : Ledger)
    (place : String × String) (row : IdempotencyRow) (answered : row.runId.isSome = true)
    : (ledger.releaseIdempotencyClaim claim).idempotency.get? place = some row
      ↔ ledger.idempotency.get? place = some row := by
  dsimp only [Ledger.releaseIdempotencyClaim]
  rw [Table.get?_delete]
  have kept : row.runId.isSome = true → ¬ claim.isHeldBy row := by
    rintro there ⟨_, _, free, _⟩
    simp_all
  rw [Option.filter_eq_some_iff]
  simp [kept answered]

theorem IngestWorld.makes_request {env : Env} {now : Time} {request : RunRequest}
    {world after : IngestWorld} (done : world.request env now request = some after)
    : world.Makes now request after ∧ after.readers = world.readers
      ∧ after.offsetFile = world.offsetFile := by
  obtain ⟨⟨store, ledger⟩, made, rfl⟩ := Option.map_eq_some_iff.mp done
  have created : createRunFull env now request world.engine.db world.ledger = .ok (store, ledger) := by
    cases result : createRunFull env now request world.engine.db world.ledger with
    | error problem =>
        rw [result] at made
        cases made
    | ok value =>
        rw [result] at made
        exact congrArg Except.ok (Option.some.inj made)
  exact ⟨⟨rfl, rfl, rfl, written_of_createRunFull created⟩, rfl, rfl⟩

theorem IngestWorld.keeps_park {now : Time} {payload error source : String} {failures : Nat}
    {position : Option Nat} {world after : IngestWorld}
    (done : world.park now payload error source failures position = some after)
    : world.Keeps after ∧ after.readers = world.readers ∧ after.offsetFile = world.offsetFile
      ∧ after.ledger.partitions = world.ledger.partitions
      ∧ after.parked = (position.map (fun position => (source, position))).toList ++ world.parked := by
  obtain ⟨ledger, recorded, rfl⟩ := Option.map_eq_some_iff.mp done
  obtain ⟨deadLetters, inserted, rfl⟩ := Option.map_eq_some_iff.mp recorded
  obtain ⟨free, reads⟩ := Table.get?_insert inserted
  obtain ⟨keys, letters, leases⟩ := Ledger.commitOffset_others now
    (position.map (fun position => (source, position))) { world.ledger with deadLetters }
  refine ⟨⟨rfl, ?_, ?_, Nat.le_succ _, ?_⟩, rfl, rfl, leases, rfl⟩
  · intro key row answered
    dsimp only
    rw [keys]
  · intro id there
    dsimp only at there ⊢
    rw [letters, reads] at there
    split at there
    next here => exact Or.inr ⟨here.symm, by rw [here]; exact Nat.lt_succ_self _⟩
    next => exact Or.inl there
  · cases position with
    | none => exact Or.inl ⟨rfl, rfl⟩
    | some position =>
        refine Or.inr ⟨now, (source, position), rfl, ?_, ?_⟩
        · dsimp only
          rw [letters, reads]
          simp [Keyed.key]
        · intro name
          exact Ledger.offsets_upsertSourceOffset ..

theorem IngestOp.makes_or_keeps {env : Env} {streams : Streams} {op : IngestOp}
    {world after : IngestWorld} (done : op.step env streams world = some after)
    : (∃ now request, world.Makes now request after) ∨ world.Keeps after := by
  cases op with
  | engine op => cases done
  | claimIdempotencyKey now principal key fingerprint =>
      obtain ⟨ledger, claimed, rfl⟩ := Option.map_eq_some_iff.mp done
      have answers := Ledger.answers_claimIdempotencyKey claimed
      have others := Ledger.others_claimIdempotencyKey claimed
      refine Or.inr ⟨rfl, answers, ?_, Nat.le_refl _, Or.inl ⟨rfl, others.2.1⟩⟩
      intro id there
      exact Or.inl (others.1 ▸ there)
  | createRunClaimed now claim submission =>
      simp only [IngestOp.step] at done
      split at done
      next => exact Or.inl ⟨_, _, (IngestWorld.makes_request done).1⟩
      next => cases done
  | releaseIdempotencyClaim claim =>
      simp only [IngestOp.step] at done
      split at done
      next =>
        cases done
        exact Or.inr ⟨rfl, Ledger.answers_releaseIdempotencyClaim claim world.ledger,
          fun _ there => Or.inl there, Nat.le_refl _, Or.inl ⟨rfl, rfl⟩⟩
      next => cases done
  | createRunFromDeadLetter now id submission =>
      exact Or.inl ⟨_, _, (IngestWorld.makes_request done).1⟩
  | discardDeadLetter id =>
      cases done
      refine Or.inr ⟨rfl, fun _ _ _ => Iff.rfl, ?_, Nat.le_refl _, Or.inl ⟨rfl, rfl⟩⟩
      intro other there
      have there : ((world.ledger.deadLetters.delete (fun row => row.id = id)).get? other).isSome
          = true := there
      rw [Table.get?_delete] at there
      obtain ⟨row, found⟩ := Option.isSome_iff_exists.mp there
      exact Or.inl (by simp [(Option.filter_eq_some_iff.mp found).1])
  | recordDeadLetter now payload error source failures =>
      exact Or.inr (IngestWorld.keeps_park done).1
  | createRunWithOffset now worker key submission mirrored =>
      obtain ⟨next, _, done⟩ := Option.bind_eq_some_iff.mp done
      obtain ⟨middle, requested, rfl⟩ := Option.map_eq_some_iff.mp done
      obtain ⟨made, parked, letters, written⟩ := (IngestWorld.makes_request requested).1
      exact Or.inl ⟨_, _, ⟨made, parked, letters, written⟩⟩
  | recordDeadLetterWithOffset now worker key payload error failures mirrored =>
      obtain ⟨next, _, done⟩ := Option.bind_eq_some_iff.mp done
      obtain ⟨middle, recorded, rfl⟩ := Option.map_eq_some_iff.mp done
      obtain ⟨made, answers, letters, minted, positions⟩ := (IngestWorld.keeps_park recorded).1
      exact Or.inr ⟨made, answers, letters, minted, positions⟩
  | openShard worker source partition =>
      simp only [IngestOp.step] at done
      split at done
      next =>
        obtain ⟨readers, _, rfl⟩ := Option.map_eq_some_iff.mp done
        exact Or.inr (.of_eq rfl rfl rfl rfl rfl rfl)
      next => cases done
  | openWhole worker source lookup =>
      obtain ⟨readers, _, rfl⟩ := Option.map_eq_some_iff.mp done
      exact Or.inr (.of_eq rfl rfl rfl rfl rfl rfl)
  | recv worker key =>
      obtain ⟨reader, _, done⟩ := Option.bind_eq_some_iff.mp done
      split at done
      next => cases done
      next =>
        obtain ⟨next, _, rfl⟩ := Option.map_eq_some_iff.mp done
        exact Or.inr (.of_eq rfl rfl rfl rfl rfl rfl)
  | registerSourcePartitions | claimSourcePartitions | renewSourcePartitions
  | releaseSourcePartitions | heldSourcePartitions | crash =>
      cases done
      exact Or.inr (.of_eq rfl rfl rfl rfl rfl rfl)

-- Keys and dead letters

def RunRequest.key (request : RunRequest) : Option (String × String) :=
  request.claim.map IdempotencyClaim.row

/-- Every key came to one run at most, and one that came to a run is answered. -/
structure IngestWorld.KeysOnce (world : IngestWorld) : Prop where
  once
    : (world.made.filterMap RunRequest.key).Nodup
  answered
    : ∀ key ∈ world.made.filterMap RunRequest.key,
      ∃ row, world.ledger.idempotency.get? key = some row ∧ row.runId.isSome = true

theorem IngestWorld.KeysOnce.makes {now : Time} {request : RunRequest} {world after : IngestWorld}
    (fair : world.KeysOnce) (makes : world.Makes now request after)
    : after.KeysOnce := by
  have kept (place : String × String) (apart : place ∉ request.key)
      (member : place ∈ world.made.filterMap RunRequest.key)
      : ∃ row, after.ledger.idempotency.get? place = some row ∧ row.runId.isSome = true := by
    obtain ⟨row, found, answered⟩ := fair.answered place member
    refine ⟨row, ?_, answered⟩
    rw [makes.written.claims place]
    · exact found
    · rintro claim given rfl
      exact apart (by simp [RunRequest.key, given])
  cases given : request.claim with
  | none =>
      have keyless : request.key = none := by simp [RunRequest.key, given]
      refine ⟨?_, ?_⟩
      · rw [makes.made, List.filterMap_cons_none keyless]
        exact fair.once
      · rw [makes.made, List.filterMap_cons_none keyless]
        exact fun place member => kept place (by simp [keyless]) member
  | some claim =>
      have keyed : request.key = some claim.row := by simp [RunRequest.key, given]
      obtain ⟨row, was, free, _, is⟩ := makes.written.claim claim given
      have new : claim.row ∉ world.made.filterMap RunRequest.key := by
        intro member
        obtain ⟨other, found, answered⟩ := fair.answered _ member
        rw [was] at found
        cases found
        simp [free] at answered
      refine ⟨?_, ?_⟩
      · rw [makes.made, List.filterMap_cons_some keyed]
        exact List.nodup_cons.mpr ⟨new, fair.once⟩
      · rw [makes.made, List.filterMap_cons_some keyed]
        intro place member
        by_cases here : place = claim.row
        · subst here
          exact ⟨_, is, rfl⟩
        · refine kept place ?_ ((List.mem_cons.mp member).resolve_left here)
          simpa [keyed] using Ne.symm here

theorem IngestWorld.KeysOnce.keeps {world after : IngestWorld} (fair : world.KeysOnce)
    (keeps : world.Keeps after)
    : after.KeysOnce where
  once := keeps.made ▸ fair.once
  answered := by
    rw [keeps.made]
    intro place member
    obtain ⟨row, found, answered⟩ := fair.answered place member
    exact ⟨row, (keeps.answers place row answered).mpr found, answered⟩

/-- Every dead letter came to one run at most, and one that came to a run is gone. -/
structure IngestWorld.LettersOnce (world : IngestWorld) : Prop where
  once
    : (world.made.filterMap RunRequest.deadLetter).Nodup
  gone
    : ∀ id ∈ world.made.filterMap RunRequest.deadLetter,
      id < world.letters ∧ world.ledger.deadLetters.get? id = none
  minted
    : ∀ id, (world.ledger.deadLetters.get? id).isSome = true → id < world.letters

theorem IngestWorld.LettersOnce.makes {now : Time} {request : RunRequest}
    {world after : IngestWorld} (fair : world.LettersOnce) (makes : world.Makes now request after)
    : after.LettersOnce := by
  have minted (id : Nat) (there : (after.ledger.deadLetters.get? id).isSome = true)
      : id < after.letters := by
    rw [makes.letters]
    by_cases taken : request.deadLetter = some id
    · exact fair.minted id (makes.written.deadLetter id taken).1
    · exact fair.minted id (makes.written.deadLetters id taken ▸ there)
  have kept (id : Nat) (apart : request.deadLetter ≠ some id)
      (member : id ∈ world.made.filterMap RunRequest.deadLetter)
      : id < after.letters ∧ after.ledger.deadLetters.get? id = none := by
    rw [makes.letters, makes.written.deadLetters id apart]
    exact fair.gone id member
  cases given : request.deadLetter with
  | none =>
      refine ⟨?_, ?_, minted⟩
      · rw [makes.made, List.filterMap_cons_none given]
        exact fair.once
      · rw [makes.made, List.filterMap_cons_none given]
        exact fun id member => kept id (by simp [given]) member
  | some letter =>
      obtain ⟨was, is⟩ := makes.written.deadLetter letter given
      have new : letter ∉ world.made.filterMap RunRequest.deadLetter := by
        intro member
        rw [(fair.gone _ member).2] at was
        cases was
      refine ⟨?_, ?_, minted⟩
      · rw [makes.made, List.filterMap_cons_some given]
        exact List.nodup_cons.mpr ⟨new, fair.once⟩
      · rw [makes.made, List.filterMap_cons_some given]
        intro id member
        by_cases here : id = letter
        · subst here
          exact ⟨makes.letters ▸ fair.minted _ was, is⟩
        · refine kept id ?_ ((List.mem_cons.mp member).resolve_left here)
          simpa [given] using Ne.symm here

theorem IngestWorld.LettersOnce.keeps {world after : IngestWorld} (fair : world.LettersOnce)
    (keeps : world.Keeps after)
    : after.LettersOnce where
  once := keeps.made ▸ fair.once
  gone := by
    rw [keeps.made]
    intro id member
    obtain ⟨old, none_⟩ := fair.gone id member
    refine ⟨Nat.lt_of_lt_of_le old keeps.minted, ?_⟩
    by_contra there
    rcases keeps.letters id (Option.isSome_iff_ne_none.mpr there) with was | ⟨new, _⟩
    · rw [none_] at was
      cases was
    · omega
  minted := by
    intro id there
    rcases keeps.letters id there with was | ⟨_, new⟩
    · exact Nat.lt_of_lt_of_le (fair.minted id was) keeps.minted
    · exact new

-- Positions

theorem split_unique {Item : Type} {separator : Item} {first second rest rest' : List Item}
    (plain : separator ∉ first) (plain' : separator ∉ second)
    (same : first ++ separator :: rest = second ++ separator :: rest')
    : first = second ∧ rest = rest' := by
  rcases List.append_eq_append_iff.mp same with ⟨middle, rfl, tail⟩ | ⟨middle, rfl, tail⟩
  · cases middle with
    | nil => simpa using tail
    | cons head _ =>
        have here : separator = head := (List.cons.inj tail).1
        simp [here] at plain'
  · cases middle with
    | nil => simpa using tail.symm
    | cons head _ =>
        have here : separator = head := (List.cons.inj tail).1
        simp [here] at plain

theorem SourceKey.offsetKey_injective {first second : SourceKey} (same : first.offsetKey = second.offsetKey)
    : first = second := by
  obtain ⟨⟨source, plain⟩, partition⟩ := first
  obtain ⟨⟨source', plain'⟩, partition'⟩ := second
  have slashed (partition : String) : ("/" ++ partition).toList = '/' :: partition.toList := by
    simp
  have same := congrArg String.toList same
  cases partition with
  | none =>
      cases partition' with
      | none =>
          have texts : source = source' := String.toList_inj.mp same
          subst texts
          rfl
      | some partition' =>
          simp only [SourceKey.offsetKey, String.append_assoc, String.toList_append, slashed] at same
          rw [same] at plain
          simp at plain
  | some partition =>
      cases partition' with
      | none =>
          simp only [SourceKey.offsetKey, String.append_assoc, String.toList_append, slashed] at same
          rw [← same] at plain'
          simp at plain'
      | some partition' =>
          simp only [SourceKey.offsetKey, String.append_assoc, String.toList_append, slashed] at same
          obtain ⟨texts, partitions⟩ := split_unique plain plain' same
          obtain rfl := String.toList_inj.mp texts
          obtain rfl := String.toList_inj.mp partitions
          rfl

/-- The position a source, or a shard of it, has committed, and where it begins if none. -/
def Ledger.cursor (key : SourceKey) (ledger : Ledger) : Nat :=
  (ledger.sourceOffset key).getD 0

/-- Whether a consumer leases what it reads, where that is a shard. -/
def Ledger.holds (worker : String) (key : SourceKey) (ledger : Ledger) : Prop :=
  ∀ partition ∈ key.partition,
    (ledger.partitions.get? (key.source.text, partition)).bind SourcePartition.claimedBy = some worker

instance (worker : String) (key : SourceKey) (ledger : Ledger)
    : Decidable (ledger.holds worker key) :=
  inferInstanceAs (Decidable (∀ partition ∈ key.partition, _))

/-- The positions that came to a run or to a dead letter. -/
def IngestWorld.consumed (world : IngestWorld) : List (String × Nat) :=
  world.made.filterMap RunRequest.offset ++ world.parked

/-- Every source that is read whole has one reader at most. -/
def ReadAlone (readers : Table Reader) : Prop :=
  ∀ reader ∈ readers, ∀ other ∈ readers,
    reader.key.partition = none → other.key = reader.key → other = reader

theorem ReadAlone.of_keys {before after : Table Reader} (alone : ReadAlone before)
    (within : ∀ reader ∈ after, ∃ old ∈ before, Keyed.key old = Keyed.key reader)
    : ReadAlone after := by
  intro reader member other among whole same
  obtain ⟨old, was, named⟩ := within reader member
  obtain ⟨old', was', named'⟩ := within other among
  have key : old.key = reader.key := congrArg Prod.snd named
  have key' : old'.key = other.key := congrArg Prod.snd named'
  have one := alone old was old' was' (key ▸ whole) (key'.trans (same.trans key.symm))
  refine Table.eq_of_key_eq among member ?_
  rw [← named, ← named', one]

/-- Every position was consumed once at most, and is committed. A reader whose consumer leases
what it reads is not behind what is committed, and a whole source has one reader.
-/
structure IngestWorld.PositionsOnce (world : IngestWorld) : Prop where
  once
    : world.consumed.Nodup
  passed
    : ∀ place ∈ world.consumed,
      ∃ row, world.ledger.offsets.get? place.1 = some row ∧ place.2 ≤ row.position
  files
    : ∀ key, world.offsetFile key ≤ world.ledger.cursor key
  readers
    : ∀ reader ∈ world.readers, world.ledger.holds reader.worker reader.key →
      world.ledger.cursor reader.key ≤ reader.pos
        ∧ ∀ next ∈ reader.inflight, world.ledger.cursor reader.key < next ∧ next ≤ reader.pos
  alone
    : ReadAlone world.readers

theorem Ledger.cursor_congr {before after : Ledger} {key : SourceKey}
    (same : after.offsets.get? key.offsetKey = before.offsets.get? key.offsetKey)
    : after.cursor key = before.cursor key := by
  simp only [Ledger.cursor, Ledger.sourceOffset, same]

/-- A step that consumes no position and only ends leases and readers keeps positions single. -/
theorem IngestWorld.PositionsOnce.quiet {before after : IngestWorld} (fair : before.PositionsOnce)
    (consumed : after.consumed = before.consumed)
    (offsets : ∀ name, after.ledger.offsets.get? name = before.ledger.offsets.get? name)
    (files : after.offsetFile = before.offsetFile)
    (readers : ∀ reader ∈ after.readers, reader ∈ before.readers)
    (leases : ∀ reader ∈ after.readers, after.ledger.holds reader.worker reader.key →
      before.ledger.holds reader.worker reader.key)
    : after.PositionsOnce where
  once := consumed ▸ fair.once
  passed := by
    rw [consumed]
    intro place member
    rw [offsets]
    exact fair.passed place member
  files key := by
    rw [files, Ledger.cursor_congr (offsets _)]
    exact fair.files key
  readers reader member held := by
    rw [Ledger.cursor_congr (offsets _)]
    exact fair.readers reader (readers reader member) (leases reader member held)
  alone := fair.alone.of_keys (fun reader member => ⟨reader, readers reader member, rfl⟩)

/-- A reader that opens where its stream stands committed, or past it, keeps positions single. -/
theorem IngestWorld.PositionsOnce.opens {world after : IngestWorld} {worker : String}
    {key : SourceKey} {pos : Nat} (fair : world.PositionsOnce)
    (opened : world.openReader worker key pos = some after) (there : world.ledger.cursor key ≤ pos)
    (first : key.partition = none → ∀ reader ∈ world.readers, reader.key ≠ key)
    : after.PositionsOnce := by
  obtain ⟨readers, inserted, rfl⟩ := Option.map_eq_some_iff.mp opened
  have rows : ∀ reader ∈ readers, reader ∈ world.readers ∨ reader = { worker, key, pos } := by
    intro reader member
    have found := Table.get?_of_mem member
    rw [(Table.get?_insert inserted).2] at found
    split at found
    next => exact Or.inr (Option.some.inj found).symm
    next => exact Or.inl (Table.mem_of_get? found)
  refine ⟨fair.once, fair.passed, fair.files, ?_, ?_⟩
  · intro reader member held
    rcases rows reader member with old | rfl
    · exact fair.readers reader old held
    · exact ⟨there, (by rintro _ ⟨⟩)⟩
  · intro reader member other among whole same
    rcases rows reader member with old | rfl <;> rcases rows other among with old' | rfl
    · exact fair.alone reader old other old' whole same
    · exact absurd same.symm (first (by rw [show key = reader.key from same]; exact whole) reader old)
    · exact absurd same (first whole other old')
    · rfl

theorem IngestWorld.PositionsOnce.deliver {streams : Streams} {world : IngestWorld}
    {reader : Reader} {next : Nat} (fair : world.PositionsOnce) (member : reader ∈ world.readers)
    (line : streams.next reader.key reader.pos = some next)
    : (world.deliver reader.worker reader.key next).PositionsOnce := by
  have on := streams.forward line
  have moved (other : Reader) (among : other ∈ world.readers)
      (same : other.worker = reader.worker ∧ other.key = reader.key)
      : other = reader :=
    Table.eq_of_key_eq among member (Prod.ext same.1 same.2)
  refine ⟨fair.once, fair.passed, fair.files, ?_, ?_⟩
  · intro other among held
    dsimp only [IngestWorld.deliver] at among
    obtain ⟨old, was, rfl⟩ := Table.mem_update.mp among
    split at held
    next same =>
      obtain rfl := moved old was same
      have behind := (fair.readers old was held).1
      rw [if_pos same]
      refine ⟨Nat.le_trans behind (Nat.le_of_lt on), ?_⟩
      rintro past ⟨⟩
      exact ⟨Nat.lt_of_le_of_lt behind on, Nat.le_refl _⟩
    next apart =>
      rw [if_neg apart]
      exact fair.readers old was held
  · exact fair.alone.of_keys (fun other among =>
      Table.exists_key_of_mem_update (by intro; rfl) among)

theorem IngestWorld.PositionsOnce.commits {before middle : IngestWorld} {now : Time}
    {worker : String} {key : SourceKey} {next : Nat} {mirrored : Bool}
    (fair : before.PositionsOnce) (pending : before.pendingPosition worker key = some next)
    (holder : before.ledger.holds worker key)
    (consumed : middle.consumed.Perm ((key.offsetKey, next) :: before.consumed))
    (offsets : ∀ name, middle.ledger.offsets.get? name
      = if name = key.offsetKey then some ⟨name, next, now⟩ else before.ledger.offsets.get? name)
    (partitions : middle.ledger.partitions = before.ledger.partitions)
    (readers : middle.readers = before.readers) (files : middle.offsetFile = before.offsetFile)
    : (middle.ack worker key next mirrored).PositionsOnce := by
  obtain ⟨reader, found, inflight⟩ := Option.bind_eq_some_iff.mp pending
  have member := Table.mem_of_get? found
  have named : (reader.worker, reader.key) = (worker, key) := Table.key_of_get? found
  obtain ⟨rfl, rfl⟩ := Prod.mk.inj named
  obtain ⟨ahead, read⟩ := (fair.readers reader member holder).2 next inflight
  have here : middle.ledger.cursor reader.key = next := by
    simp [Ledger.cursor, Ledger.sourceOffset, offsets]
  have elsewhere (key : SourceKey) (apart : key ≠ reader.key)
      : middle.ledger.cursor key = before.ledger.cursor key :=
    Ledger.cursor_congr (by
      rw [offsets, if_neg (fun same => apart (SourceKey.offsetKey_injective same))])
  have forward (key : SourceKey) : before.ledger.cursor key ≤ middle.ledger.cursor key := by
    by_cases same : key = reader.key
    · rw [same, here]
      exact Nat.le_of_lt ahead
    · exact Nat.le_of_eq (elsewhere key same).symm
  have holds (worker : String) (key : SourceKey)
      : middle.ledger.holds worker key ↔ before.ledger.holds worker key := by
    simp only [Ledger.holds, partitions]
  refine ⟨?_, ?_, ?_, ?_, ?_⟩
  · refine consumed.nodup_iff.mpr (List.nodup_cons.mpr ⟨?_, fair.once⟩)
    intro taken
    obtain ⟨row, there, passed⟩ := fair.passed _ taken
    have cursor : before.ledger.cursor reader.key = row.position := by
      simp [Ledger.cursor, Ledger.sourceOffset, show before.ledger.offsets.get? reader.key.offsetKey
        = some row from there]
    have passed : next ≤ row.position := passed
    omega
  · intro place among
    rcases List.mem_cons.mp (consumed.mem_iff.mp among) with rfl | old
    · exact ⟨_, (offsets _).trans (if_pos rfl), Nat.le_refl _⟩
    · obtain ⟨row, there, passed⟩ := fair.passed place old
      by_cases same : place.1 = reader.key.offsetKey
      · refine ⟨_, (offsets _).trans (if_pos same), ?_⟩
        have cursor : before.ledger.cursor reader.key = row.position := by
          simp [Ledger.cursor, Ledger.sourceOffset, ← same, there]
        dsimp only
        omega
      · exact ⟨row, (offsets _).trans ((if_neg same).trans there), passed⟩
  · intro key
    have old : middle.offsetFile key ≤ middle.ledger.cursor key := by
      rw [files]
      exact Nat.le_trans (fair.files key) (forward key)
    dsimp only [IngestWorld.ack]
    split
    next =>
      by_cases same : key = reader.key
      · rw [same, Function.update_self, here]
      · rw [Function.update_of_ne same]
        exact old
    next => exact old
  · intro other among held
    dsimp only [IngestWorld.ack] at among
    obtain ⟨old, was, rfl⟩ := Table.mem_update.mp among
    rw [readers] at was
    split at held
    next same =>
      have one : old = reader := Table.eq_of_key_eq was member (Prod.ext same.1 same.2)
      rw [if_pos same]
      refine ⟨?_, (by rintro _ ⟨⟩)⟩
      change middle.ledger.cursor old.key ≤ old.pos
      rw [one, here]
      exact read
    next apart =>
      rw [if_neg apart]
      have held := (holds old.worker old.key).mp held
      have other : old.key ≠ reader.key := by
        intro same
        refine apart ⟨?_, same⟩
        cases whole : reader.key.partition with
        | none => rw [fair.alone reader member old was whole same]
        | some partition =>
            have leased := holder partition whole
            rw [same] at held
            have leased' := held partition whole
            exact Option.some.inj (leased'.symm.trans leased)
      dsimp only [IngestWorld.ack]
      rw [elsewhere _ other]
      exact fair.readers old was held
  · have alone : ReadAlone middle.readers := readers ▸ fair.alone
    exact alone.of_keys (fun other among => Table.exists_key_of_mem_update (by intro; rfl) among)

-- Leases

theorem Ledger.holds_of {before after : Ledger} {worker : String} {key : SourceKey}
    (within : ∀ place row, after.partitions.get? place = some row → row.claimedBy = some worker →
      ∃ old, before.partitions.get? place = some old ∧ old.claimedBy = some worker)
    (held : after.holds worker key)
    : before.holds worker key := by
  intro partition given
  obtain ⟨row, found, claimed⟩ := Option.bind_eq_some_iff.mp (held partition given)
  obtain ⟨old, was, claimed⟩ := within _ row found claimed
  exact Option.bind_eq_some_iff.mpr ⟨old, was, claimed⟩

theorem Ledger.holds_registerSourcePartitions {now : Time} {source : SourceName}
    {partitions : List String} {ledger : Ledger} {worker : String} {key : SourceKey}
    (held : (ledger.registerSourcePartitions now source partitions).holds worker key)
    : ledger.holds worker key := by
  refine Ledger.holds_of ?_ held
  intro place row found claimed
  rcases (Table.get?_insertOrIgnore_foldl _ _).2.1 place row found with old | ⟨_, new⟩
  · exact ⟨row, old, claimed⟩
  · obtain ⟨partition, _, rfl⟩ := List.mem_map.mp new
    cases claimed

theorem Ledger.holds_renewSourcePartitions {now : Time} {source : SourceName} {worker' : String}
    {leaseSecs : Nat} {ledger : Ledger} {worker : String} {key : SourceKey}
    (held : (ledger.renewSourcePartitions now source worker' leaseSecs).holds worker key)
    : ledger.holds worker key := by
  refine Ledger.holds_of ?_ held
  intro place row found claimed
  have keeps (row : SourcePartition) : Keyed.key { row with
      leaseExpiresAt := some (now + seconds leaseSecs), updatedAt := now } = Keyed.key row := rfl
  obtain ⟨old, was, rfl⟩ := Option.map_eq_some_iff.mp ((Table.get?_update keeps place).symm.trans found)
  refine ⟨old, was, ?_⟩
  split at claimed <;> exact claimed

theorem Ledger.holds_releaseSourcePartitions {now : Time} {source : SourceName} {worker' : String}
    {ledger : Ledger} {worker : String} {key : SourceKey}
    (held : (ledger.releaseSourcePartitions now source worker').holds worker key)
    : ledger.holds worker key := by
  refine Ledger.holds_of ?_ held
  intro place row found claimed
  have keeps (row : SourcePartition) : Keyed.key { row with
      claimedBy := none, leaseExpiresAt := none, updatedAt := now } = Keyed.key row := rfl
  obtain ⟨old, was, rfl⟩ := Option.map_eq_some_iff.mp ((Table.get?_update keeps place).symm.trans found)
  refine ⟨old, was, ?_⟩
  split at claimed
  · cases claimed
  · exact claimed

theorem Ledger.holds_claimSourcePartitions {now : Time} {source : SourceName} {worker' : String}
    {limit leaseSecs : Nat} {ledger : Ledger} {worker : String} {key : SourceKey}
    (held : (ledger.claimSourcePartitions now source worker' limit leaseSecs).holds worker key)
    : ledger.holds worker key ∨ worker = worker' ∧
      ∃ row ∈ ledger.claimable now source worker' limit, key.source.text = source.text
        ∧ key.partition = some row.partition := by
  cases given : key.partition with
  | none => exact Or.inl (fun partition among => absurd among (by simp [given]))
  | some partition =>
      obtain ⟨row, found, claimed⟩ := Option.bind_eq_some_iff.mp (held partition given)
      have keeps (row : SourcePartition) : Keyed.key { row with
          claimedBy := some worker', leaseExpiresAt := some (now + seconds leaseSecs)
          updatedAt := now } = Keyed.key row := rfl
      obtain ⟨old, was, rfl⟩ :=
        Option.map_eq_some_iff.mp ((Table.get?_update keeps _).symm.trans found)
      split at claimed
      next taken =>
        obtain ⟨other, among, same⟩ := List.mem_map.mp taken
        have named : (old.sourceName, old.partition) = (key.source.text, partition) :=
          Table.key_of_get? was
        have same : (other.sourceName, other.partition) = (old.sourceName, old.partition) := same
        have of_source : other.sourceName = source.text :=
          (Table.mem_select.mp (List.mem_of_mem_take among)).2.1
        obtain ⟨text, name⟩ := Prod.mk.inj (same.trans named)
        exact Or.inr ⟨(Option.some.inj claimed).symm, other, among, text.symm.trans of_source, by
          rw [name]⟩
      next =>
        refine Or.inl ?_
        intro partition' given'
        rw [given] at given'
        obtain rfl := Option.some.inj given'
        exact Option.bind_eq_some_iff.mpr ⟨old, was, claimed⟩

-- Once

/-- The consumer whose line a step consumes, and the stream that it is of. -/
def IngestOp.consumes : IngestOp → Option (String × SourceKey)
  | .createRunWithOffset _ worker key _ _ => some (worker, key)
  | .recordDeadLetterWithOffset _ worker key _ _ _ _ => some (worker, key)
  | _ => none

/-- Whether a step is owned: a consumer leases the shard that it consumes a line of, and has no
reader left of a shard that it claims; a whole source is opened while nobody reads it, where it
stands committed.
-/
def IngestOp.Owned (op : IngestOp) (world : IngestWorld) : Prop :=
  (∀ reading ∈ op.consumes, world.ledger.holds reading.1 reading.2)
    ∧ match op with
      | .claimSourcePartitions now source worker limit _ =>
          ∀ row ∈ world.ledger.claimable now source worker limit,
            world.readers.get? (worker, ⟨source, some row.partition⟩) = none
      | .openWhole _ source lookup =>
          lookup = true ∧ world.readers.count (fun reader => reader.key = ⟨source, none⟩) = 0
      | _ => True

instance (op : IngestOp) (world : IngestWorld) : Decidable (op.Owned world) := by
  unfold IngestOp.Owned
  cases op <;> infer_instance

theorem IngestWorld.PositionsOnce.request {env : Env} {now : Time} {request : RunRequest}
    {world after : IngestWorld} (fair : world.PositionsOnce) (apart : request.offset = none)
    (done : world.request env now request = some after)
    : after.PositionsOnce := by
  obtain ⟨makes, readers, files⟩ := IngestWorld.makes_request done
  refine fair.quiet ?_ ?_ files (fun _ member => readers ▸ member) ?_
  · rw [IngestWorld.consumed, makes.made, List.filterMap_cons_none apart, makes.parked]
    rfl
  · exact fun name => makes.written.offsets name (by simp [apart])
  · intro reader _ held
    rw [Ledger.holds, makes.written.partitions] at held
    exact held

theorem IngestWorld.PositionsOnce.park {now : Time} {payload error source : String}
    {failures : Nat} {world after : IngestWorld} (fair : world.PositionsOnce)
    (done : world.park now payload error source failures none = some after)
    : after.PositionsOnce := by
  obtain ⟨keeps, readers, files, partitions, parked⟩ := IngestWorld.keeps_park done
  refine fair.quiet ?_ ?_ files (fun _ member => readers ▸ member) ?_
  · rw [IngestWorld.consumed, keeps.made, parked]
    rfl
  · intro name
    rcases keeps.positions with ⟨_, offsets⟩ | ⟨_, place, more, _⟩
    · rw [offsets]
    · rw [parked] at more
      exact absurd (congrArg List.length more) (by simp)
  · intro reader _ held
    rw [Ledger.holds, partitions] at held
    exact held

theorem IngestWorld.PositionsOnce.cursor_le {world : IngestWorld} (fair : world.PositionsOnce)
    (key : SourceKey)
    : world.ledger.cursor key ≤ world.committedOffset key true := by
  have file := fair.files key
  unfold Ledger.cursor at file ⊢
  unfold IngestWorld.committedOffset
  cases read : world.ledger.sourceOffset key with
  | none => simp
  | some position => simp

theorem IngestWorld.PositionsOnce.step {env : Env} {streams : Streams} {op : IngestOp}
    {world after : IngestWorld} (fair : world.PositionsOnce) (owned : op.Owned world)
    (done : op.step env streams world = some after)
    : after.PositionsOnce := by
  cases op with
  | engine op => cases done
  | claimIdempotencyKey now principal key fingerprint =>
      obtain ⟨ledger, claimed, rfl⟩ := Option.map_eq_some_iff.mp done
      obtain ⟨_, offsets, partitions⟩ := Ledger.others_claimIdempotencyKey claimed
      refine fair.quiet rfl (fun name => by rw [offsets]) rfl (fun _ member => member) ?_
      intro reader _ held
      simpa only [Ledger.holds, partitions] using held
  | createRunClaimed now claim submission =>
      simp only [IngestOp.step] at done
      split at done
      next => exact fair.request rfl done
      next => cases done
  | releaseIdempotencyClaim claim =>
      simp only [IngestOp.step] at done
      split at done
      next =>
        cases done
        exact fair.quiet rfl (fun _ => rfl) rfl (fun _ member => member) (fun _ _ held => held)
      next => cases done
  | createRunFromDeadLetter now id submission => exact fair.request rfl done
  | discardDeadLetter id =>
      cases done
      exact fair.quiet rfl (fun _ => rfl) rfl (fun _ member => member) (fun _ _ held => held)
  | recordDeadLetter now payload error source failures => exact fair.park done
  | registerSourcePartitions now source partitions =>
      cases done
      exact fair.quiet rfl (fun _ => rfl) rfl (fun _ member => member)
        (fun _ _ held => Ledger.holds_registerSourcePartitions held)
  | claimSourcePartitions now source worker limit leaseSecs =>
      cases done
      refine fair.quiet rfl (fun _ => rfl) rfl (fun _ member => member) ?_
      intro reader member held
      rcases Ledger.holds_claimSourcePartitions held with held | ⟨mine, row, among, of_source, given⟩
      · exact held
      · have named : reader.key = ⟨source, some row.partition⟩ := by
          obtain ⟨worker, ⟨⟨text, plain⟩, partition⟩, pos, inflight⟩ := reader
          cases of_source
          cases given
          rfl
        have absent := owned.2 row among
        have found := Table.get?_of_mem member
        rw [show Keyed.key reader = (worker, ⟨source, some row.partition⟩) from Prod.ext mine named,
          absent] at found
        cases found
  | renewSourcePartitions now source worker leaseSecs =>
      cases done
      exact fair.quiet rfl (fun _ => rfl) rfl (fun _ member => member)
        (fun _ _ held => Ledger.holds_renewSourcePartitions held)
  | releaseSourcePartitions now source worker =>
      cases done
      exact fair.quiet rfl (fun _ => rfl) rfl (fun _ member => member)
        (fun _ _ held => Ledger.holds_releaseSourcePartitions held)
  | heldSourcePartitions source worker | crash worker =>
      cases done
      exact fair.quiet rfl (fun _ => rfl) rfl (fun _ member => (Table.mem_delete.mp member).1)
        (fun _ _ held => held)
  | openShard worker source partition =>
      simp only [IngestOp.step] at done
      split at done
      next =>
        exact fair.opens done (fair.cursor_le _) (by rintro ⟨⟩)
      next => cases done
  | openWhole worker source lookup =>
      obtain ⟨rfl, none_⟩ := owned.2
      refine fair.opens done (fair.cursor_le _) ?_
      intro _ reader member same
      have among : 0 < world.readers.count (fun reader => reader.key = ⟨source, none⟩) :=
        List.countP_pos_iff.mpr ⟨reader, member, by simpa using same⟩
      omega
  | recv worker key =>
      obtain ⟨reader, found, done⟩ := Option.bind_eq_some_iff.mp done
      split at done
      next => cases done
      next =>
        obtain ⟨next, line, rfl⟩ := Option.map_eq_some_iff.mp done
        have named : (reader.worker, reader.key) = (worker, key) := Table.key_of_get? found
        obtain ⟨rfl, rfl⟩ := Prod.mk.inj named
        exact fair.deliver (Table.mem_of_get? found) line
  | createRunWithOffset now worker key submission mirrored =>
      obtain ⟨next, pending, done⟩ := Option.bind_eq_some_iff.mp done
      obtain ⟨middle, requested, rfl⟩ := Option.map_eq_some_iff.mp done
      obtain ⟨makes, readers, files⟩ := IngestWorld.makes_request requested
      have offsets (name : String) : middle.ledger.offsets.get? name
          = if name = key.offsetKey then some ⟨name, next, now⟩
            else world.ledger.offsets.get? name := by
        split
        next here => exact here ▸ makes.written.offset _ rfl
        next apart =>
          refine makes.written.offsets name ?_
          rintro offset ⟨⟩
          exact apart
      refine fair.commits pending (owned.1 _ rfl) ?_ offsets makes.written.partitions readers files
      rw [IngestWorld.consumed, makes.made, makes.parked]
      exact List.Perm.refl _
  | recordDeadLetterWithOffset now worker key payload error failures mirrored =>
      obtain ⟨next, pending, done⟩ := Option.bind_eq_some_iff.mp done
      obtain ⟨middle, recorded, rfl⟩ := Option.map_eq_some_iff.mp done
      obtain ⟨keeps, readers, files, partitions, parked⟩ := IngestWorld.keeps_park recorded
      rcases keeps.positions with ⟨none_, _⟩ | ⟨then_, place, one, _, offsets⟩
      · rw [parked] at none_
        exact absurd (congrArg List.length none_) (by simp)
      · rw [parked] at one
        obtain ⟨rfl, _⟩ := List.cons.inj one
        refine fair.commits pending (owned.1 _ rfl) ?_ offsets partitions readers files
        rw [IngestWorld.consumed, keeps.made, parked]
        exact List.perm_middle

/-- Every key, every dead letter and every position came to one run at most, a position to one
dead letter if not to a run.
-/
structure IngestWorld.Once (world : IngestWorld) : Prop where
  positions
    : world.consumed.Nodup
  keys
    : (world.made.filterMap RunRequest.key).Nodup
  deadLetters
    : (world.made.filterMap RunRequest.deadLetter).Nodup

/-- What holds of a world whose steps are all owned. -/
structure IngestWorld.Fair (world : IngestWorld) : Prop where
  positions
    : world.PositionsOnce
  keys
    : world.KeysOnce
  letters
    : world.LettersOnce

theorem IngestWorld.Fair.once {world : IngestWorld} (fair : world.Fair)
    : world.Once :=
  ⟨fair.positions.once, fair.keys.once, fair.letters.once⟩

theorem IngestWorld.Fair.init
    : IngestWorld.init.Fair where
  positions := by
    refine ⟨List.nodup_nil, nofun, fun _ => Nat.zero_le _, ?_, ?_⟩
    · exact fun reader member => absurd member (Table.not_mem_empty reader)
    · exact fun reader member => absurd member (Table.not_mem_empty reader)
  keys := ⟨List.nodup_nil, nofun⟩
  letters := ⟨List.nodup_nil, nofun, nofun⟩

theorem exists_engine_of_mem {label : IngestOp} {world : IngestWorld} {engines : List World}
    {commit : Commit IngestWorld IngestOp} (engine : World)
    (member : commit ∈ commitsFrom label { world with engine }
      (engines.map (fun engine => { world with engine })))
    : ∃ before after, commit.before = { world with engine := before }
      ∧ commit.after = { world with engine := after } := by
  induction engines generalizing engine with
  | nil => cases member
  | cons head rest ih =>
      rcases List.mem_cons.mp member with rfl | later
      · exact ⟨engine, head, rfl, rfl⟩
      · exact ih head later

theorem IngestOp.cases_of_mem {env : Env} {streams : Streams} {op : IngestOp} {world : IngestWorld}
    {commit : Commit IngestWorld IngestOp}
    (member : commit ∈ commitsFrom op world (op.commits env streams world))
    : (∃ before after, commit.before = { world with engine := before }
        ∧ commit.after = { world with engine := after } ∧ op.consumes = none)
      ∨ ∃ after, op.step env streams world = some after ∧ commit = ⟨op, world, after⟩ := by
  cases op with
  | engine op =>
      obtain ⟨before, after, was, is⟩ := exists_engine_of_mem world.engine member
      exact Or.inl ⟨before, after, was, is, rfl⟩
  | _ => exact Or.inr (mem_commitsFrom_toList.mp member)

theorem IngestWorld.Fair.step {env : Env} {streams : Streams} {op : IngestOp}
    {world after : IngestWorld} (fair : world.Fair) (owned : op.Owned world)
    (done : op.step env streams world = some after)
    : after.Fair := by
  have positions := fair.positions.step owned done
  rcases IngestOp.makes_or_keeps done with ⟨now, request, makes⟩ | keeps
  · exact ⟨positions, fair.keys.makes makes, fair.letters.makes makes⟩
  · exact ⟨positions, fair.keys.keeps keeps, fair.letters.keeps keeps⟩

/-- What a commit does: it makes a run with all that comes of it, or none, and a consumer's
commit is one of a shard that it leases.
-/
structure IngestCommit (commit : Commit IngestWorld IngestOp) : Prop where
  whole
    : (∃ now request, commit.before.Makes now request commit.after)
      ∨ commit.before.Keeps commit.after
  leased
    : ∀ reading ∈ commit.label.consumes, commit.before.ledger.holds reading.1 reading.2

theorem IngestWorld.Keeps.engine (world : IngestWorld) (before after : World)
    : IngestWorld.Keeps { world with engine := before } { world with engine := after } :=
  .of_eq rfl rfl rfl rfl rfl rfl

/-- In every run of an engine, an API and consumers, a run is made with all that comes of it or
not at all.
-/
theorem runs_made_whole {env : Env} {streams : Streams}
    {commits : List (Commit IngestWorld IngestOp)} {world : IngestWorld}
    (history : (ingest env streams).History (fun _ _ => True) .init commits world)
    : (world.KeysOnce ∧ world.LettersOnce) ∧ ∀ commit ∈ commits,
        (commit.before.KeysOnce ∧ commit.before.LettersOnce)
        ∧ (commit.after.KeysOnce ∧ commit.after.LettersOnce)
        ∧ ((∃ now request, commit.before.Makes now request commit.after)
          ∨ commit.before.Keeps commit.after) := by
  have initial : IngestWorld.init.KeysOnce ∧ IngestWorld.init.LettersOnce :=
    ⟨IngestWorld.Fair.init.keys, IngestWorld.Fair.init.letters⟩
  let Inv (world : IngestWorld) : Prop := world.KeysOnce ∧ world.LettersOnce
  refine @System.History.rule _ _ _ _ Inv _ _ _ _ history initial ?_
  intro op origin _ commit member fair _
  have does : (∃ now request, commit.before.Makes now request commit.after)
      ∨ commit.before.Keeps commit.after := by
    rcases IngestOp.cases_of_mem member with ⟨before, after, was, is, _⟩ | ⟨after, done, rfl⟩
    · rw [was, is]
      exact Or.inr (.engine origin before after)
    · exact IngestOp.makes_or_keeps done
  refine ⟨?_, does⟩
  rcases does with ⟨now, request, makes⟩ | keeps
  · exact ⟨fair.1.makes makes, fair.2.makes makes⟩
  · exact ⟨fair.1.keeps keeps, fair.2.keeps keeps⟩

/-- In every run of an engine, an API and consumers whose steps are all owned, no consumer that
lost its lease commits, and every position, key and dead letter comes to one run at most.
-/
theorem positions_made_once {env : Env} {streams : Streams}
    {commits : List (Commit IngestWorld IngestOp)} {world : IngestWorld}
    (history : (ingest env streams).History IngestOp.Owned .init commits world)
    : world.Fair ∧ ∀ commit ∈ commits, commit.before.Fair ∧ commit.after.Fair
        ∧ IngestCommit commit := by
  refine history.rule .init ?_
  intro op origin _ commit member fair owned
  have named := label_of_mem_commitsFrom member
  rcases IngestOp.cases_of_mem member with ⟨before, after, was, is, calm⟩ | ⟨after, done, rfl⟩
  · have keeps : commit.before.Keeps commit.after := by
      rw [was, is]
      exact .engine origin before after
    refine ⟨⟨?_, fair.keys.keeps keeps, fair.letters.keeps keeps⟩, .inr keeps, ?_⟩
    · have positions := fair.positions
      rw [was] at positions
      rw [is]
      exact positions.quiet rfl (fun _ => rfl) rfl (fun _ there => there) (fun _ _ held => held)
    · rw [named, calm]
      nofun
  · exact ⟨fair.step owned done, IngestOp.makes_or_keeps done, owned.1⟩

/-- In every run of an engine, an API and consumers, a run is made with all that comes of it or
not at all, and every key and every dead letter comes to one run at most. Where every step is
owned, so does every position, and no consumer that lost its lease commits.
-/
theorem runs_made_once (env : Env) (streams : Streams)
    : (∀ commits world,
        (ingest env streams).History (fun _ _ => True) .init commits world →
          (world.made.filterMap RunRequest.key).Nodup
            ∧ (world.made.filterMap RunRequest.deadLetter).Nodup
            ∧ ∀ commit ∈ commits, (∃ now request, commit.before.Makes now request commit.after)
              ∨ commit.before.Keeps commit.after)
        ∧ ∀ commits world, (ingest env streams).History IngestOp.Owned .init commits world →
          world.Once ∧ ∀ commit ∈ commits, commit.after.Once ∧ IngestCommit commit := by
  constructor
  · intro commits world history
    obtain ⟨last, every⟩ := runs_made_whole history
    exact ⟨last.1.once, last.2.once, fun commit member => (every commit member).2.2⟩
  · intro commits world history
    obtain ⟨last, every⟩ := positions_made_once history
    refine ⟨last.once, ?_⟩
    intro commit member
    obtain ⟨_, after, facts⟩ := every commit member
    exact ⟨after.once, facts⟩

-- A lease that runs out

def tens : Streams where
  next _ start := some (start + 10)
  forward line := by
    cases line
    exact Nat.lt_add_of_pos_right (by decide)

def events : SourceName :=
  ⟨"stream", by decide⟩

/-- A consumer claims the shard, reads it and has its first line in flight. -/
def reads (now : Time) (worker : String) : List IngestOp :=
  [.claimSourcePartitions now events worker 1 30, .heldSourcePartitions events worker,
    .openShard worker events "a.ndjson", .recv worker ⟨events, some "a.ndjson"⟩]

/-- A consumer whose lease ran out finds that another has its shard, who consumes its line; the
next line is parked and redriven, and a run is submitted under a key.
-/
def takenOver : List IngestOp :=
  .registerSourcePartitions 0 events ["a.ndjson"] :: reads 0 "first" ++ reads (seconds 31) "second"
    ++ [.heldSourcePartitions events "first",
      .createRunWithOffset (seconds 32) "second" ⟨events, some "a.ndjson"⟩ (submit plainReport 0)
        true,
      .recv "second" ⟨events, some "a.ndjson"⟩,
      .recordDeadLetterWithOffset (seconds 33) "second" ⟨events, some "a.ndjson"⟩ "" "" 1 false,
      .createRunFromDeadLetter (seconds 34) 0 (submit plainReport 1),
      .claimIdempotencyKey (seconds 35) "user" "key" "",
      .createRunClaimed (seconds 36) ⟨"user", "key", seconds 35⟩ (submit plainReport 2)]

/-- The consumer that took the shard over made its line a run once. -/
theorem runs_made_once_takenOver
    : ((ingest plainEnv tens).outcome .init takenOver).Once :=
  ((runs_made_once plainEnv tens).2 _ _ (.whole .start (by decide))).1

def takenTwice : List IngestOp :=
  .registerSourcePartitions 0 events ["a.ndjson"] :: reads 0 "first" ++ reads (seconds 31) "second"
    ++ [.createRunWithOffset (seconds 32) "second" ⟨events, some "a.ndjson"⟩ (submit plainReport 0)
        true,
      .createRunWithOffset (seconds 33) "first" ⟨events, some "a.ndjson"⟩ (submit plainReport 1)
        true]

/-- A consumer that lost its lease can make a line a run that its successor made one. -/
theorem not_made_once
    : ¬ ∀ (env : Env) (streams : Streams) (commits : List (Commit IngestWorld IngestOp))
        (world : IngestWorld),
        (ingest env streams).History (fun _ _ => True) .init commits world → world.Once := by
  intro once
  have history : (ingest plainEnv tens).History (fun _ _ => True) .init
      ([] ++ (ingest plainEnv tens).trace .init takenTwice)
      ((ingest plainEnv tens).outcome .init takenTwice) :=
    .whole .start (by decide)
  have twice := (once plainEnv tens _ _ history).positions
  revert twice
  decide

end Dagron.Store
