import Dagron.Store.Shards

/-! What the consumers of a stream's shards commit: an acknowledgement is of the shard its line came
from, and, while shards change hands with no line in flight, each part of a shard is committed once, by
the consumer that leases it, in the shard's order.
-/

namespace Dagron.Store

open Dagron.Library Dagron.Spec

-- Parts of the world

section Parts

variable {world : ShardedWorld} {worker other partition : String}

@[simp]
theorem consumers_with_ (consumer : Consumer)
    : (world.with_ worker consumer).consumers worker = consumer :=
  Function.update_self ..

@[simp]
theorem line?_with_ (consumer : Consumer)
    : (world.with_ worker consumer).line? other partition = world.line? other partition :=
  rfl

theorem consumers_with_other (apart : other ≠ worker) (consumer : Consumer)
    : (world.with_ worker consumer).consumers other = world.consumers other :=
  Function.update_of_ne apart ..

/-- What a delivery leaves: all but what its consumer keeps. -/
structure ShardedWorld.Beside (worker : String) (before after : ShardedWorld) : Prop where
  source
    : after.source = before.source
  ledger
    : after.ledger = before.ledger
  children
    : after.children = before.children
  committed
    : after.committed = before.committed
  offsetFile
    : after.offsetFile = before.offsetFile
  consumers
    : ∀ other, other ≠ worker → after.consumers other = before.consumers other

theorem beside_with_ (consumer : Consumer)
    : world.Beside worker (world.with_ worker consumer) :=
  ⟨rfl, rfl, rfl, rfl, rfl, fun _ apart => consumers_with_other apart consumer⟩

theorem ShardedWorld.Beside.trans {first second third : ShardedWorld} (one : first.Beside worker second)
    (two : second.Beside worker third)
    : first.Beside worker third :=
  ⟨two.source.trans one.source, two.ledger.trans one.ledger, two.children.trans one.children,
    two.committed.trans one.committed, two.offsetFile.trans one.offsetFile,
    fun other apart => (two.consumers other apart).trans (one.consumers other apart)⟩

theorem beside_deliver
    : world.Beside worker (world.deliver worker partition) := by
  rw [ShardedWorld.deliver]
  split
  · exact ⟨rfl, rfl, rfl, rfl, rfl, fun _ _ => rfl⟩
  · exact (beside_with_ _).trans (beside_with_ _)

theorem deliver_some {line : ShardLine} (has : world.line? worker partition = some line)
    : ((world.deliver worker partition).consumers worker).turn
        = .received partition line.next (some (world.shard partition, line.next))
      ∧ ((world.deliver worker partition).consumers worker).inflightPartition = some partition := by
  have routed : (world.with_ worker { world.consumers worker with
      inflightPartition := some partition }).pendingPosition worker
        = some (world.shard partition, line.next) := by
    simp only [ShardedWorld.pendingPosition, consumers_with_, Option.bind_some, line?_with_, has]
    rfl
  rw [ShardedWorld.deliver, has]
  simp [routed]

theorem deliver_none (none_ : world.line? worker partition = none)
    : world.deliver worker partition = world := by
  rw [ShardedWorld.deliver, none_]

theorem line?_congr {before after : ShardedWorld}
    (same : after.children.get? (worker, partition) = before.children.get? (worker, partition))
    : after.line? worker partition = before.line? worker partition := by
  rw [ShardedWorld.line?, same, ShardedWorld.line?]

end Parts

-- Where acknowledgements go

namespace ShardedWorld

/-- A line that a consumer is at is in flight at the shard it came from, with the position to commit
just past it.
-/
def AtLine (world : ShardedWorld) (worker : String) : Prop :=
  let consumer := world.consumers worker
  let at_ (partition : String) (handle : Nat) : Prop := consumer.inflightPartition = some partition
    ∧ (world.line? worker partition).map ShardLine.next = some handle
  match consumer.turn with
  | .idle => True
  | .received partition handle position =>
      at_ partition handle ∧ position = some (world.shard partition, handle)
  | .committed partition handle => at_ partition handle
  | .refused partition handle => at_ partition handle

/-- Every line that a consumer is at is in flight at the shard it came from. -/
def Routed (world : ShardedWorld) : Prop :=
  ∀ worker, world.AtLine worker

variable {world after : ShardedWorld} {worker : String}

theorem Routed.of_worker (routed : world.Routed) (source : after.source = world.source)
    (consumers : ∀ other, other ≠ worker → after.consumers other = world.consumers other)
    (children : ∀ other, other ≠ worker → ∀ partition,
      after.children.get? (other, partition) = world.children.get? (other, partition))
    (mine : after.AtLine worker)
    : after.Routed := by
  intro other
  by_cases same : other = worker
  · exact same ▸ mine
  · have lines (partition : String) : after.line? other partition = world.line? other partition :=
      line?_congr (children other same partition)
    have was := routed other
    simp only [AtLine, consumers other same, lines, shard, source] at was ⊢
    exact was

theorem AtLine.of_idle (idle : (world.consumers worker).turn = .idle)
    : world.AtLine worker := by
  simp only [AtLine, idle]

theorem Routed.of_same (routed : world.Routed) (source : after.source = world.source)
    (consumers : after.consumers = world.consumers) (children : after.children = world.children)
    : after.Routed := by
  intro other
  have was := routed other
  simp only [AtLine, line?, shard, consumers, children, source] at was ⊢
  exact was

-- What each step changes

/-- A step of one consumer that reads and writes none of the store: what it leaves. -/
structure Own (worker : String) (before after : ShardedWorld) : Prop where
  source
    : after.source = before.source
  ledger
    : after.ledger = before.ledger
  committed
    : after.committed = before.committed
  consumers
    : ∀ other, other ≠ worker → after.consumers other = before.consumers other
  children
    : ∀ other, other ≠ worker → ∀ partition,
      after.children.get? (other, partition) = before.children.get? (other, partition)

theorem get?_delete_other {cond : Child → Prop} [DecidablePred cond]
    (mine : ∀ child, cond child → child.worker = worker) {other : String} (apart : other ≠ worker)
    (partition : String)
    : (world.children.delete cond).get? (other, partition) = world.children.get? (other, partition) := by
  rw [Table.get?_delete]
  cases found : world.children.get? (other, partition) with
  | none => rfl
  | some child =>
      have named : (child.worker, child.partition) = (other, partition) := Table.key_of_get? found
      have kept : ¬ cond child := fun met =>
        apart ((congrArg Prod.fst named).symm.trans (mine child met))
      simp [kept]

theorem get?_update_child {set : Child → Child} {keeps : ∀ child, Keyed.key (set child) = Keyed.key child}
    (worker partition : String) (key : String × String)
    : (world.children.update (fun child => child.worker = worker ∧ child.partition = partition) set
        keeps).get? key
      = if key = (worker, partition) then (world.children.get? key).map set
        else world.children.get? key := by
  rw [Table.get?_update]
  cases found : world.children.get? key with
  | none => simp
  | some child =>
      have named : (child.worker, child.partition) = key := Table.key_of_get? found
      subst named
      simp only [Option.map_some, Prod.mk.injEq]
      split_ifs <;> rfl

theorem own_resync (done : world.resync worker = some after)
    : Own worker world after ∧ (after.consumers worker).turn = .idle
      ∧ ∀ key child, after.children.get? key = some child → world.children.get? key = some child := by
  simp only [resync, Option.ite_none_right_eq_some] at done
  obtain ⟨idle, done⟩ := done
  obtain rfl := Option.some.inj done
  refine ⟨⟨rfl, rfl, rfl, fun _ apart => consumers_with_other apart _, ?_⟩, ?_, ?_⟩
  · exact fun other apart partition => get?_delete_other (fun _ met => met.1) apart partition
  · rw [consumers_with_]
    exact idle
  · intro key child found
    simp only [with_, Table.get?_delete] at found
    exact (Option.filter_eq_some_iff.mp found).1

theorem own_crash
    : Own worker world ({ world with
        children := world.children.delete (fun child => child.worker = worker) }.with_ worker {}) :=
  ⟨rfl, rfl, rfl, fun _ apart => consumers_with_other apart _,
    fun _ apart partition => get?_delete_other (fun _ met => met) apart partition⟩

theorem own_openShard {partition : String} (done : world.openShard worker partition = some after)
    : Own worker world after ∧ (after.consumers worker).turn = .idle
      ∧ ∀ key child, after.children.get? key = some child → world.children.get? key = some child
        ∨ key = (worker, partition) ∧ child = ⟨worker, partition,
            world.ledger.sourceOffset (world.shard partition), false, 0, 0, none⟩ := by
  simp only [openShard, Option.ite_none_right_eq_some] at done
  obtain ⟨⟨idle, -⟩, done⟩ := done
  obtain ⟨children, inserted, rfl⟩ := Option.map_eq_some_iff.mp done
  obtain ⟨-, reads⟩ := Table.get?_insert inserted
  refine ⟨⟨rfl, rfl, rfl, fun _ apart => consumers_with_other apart _, ?_⟩, ?_, ?_⟩
  · intro other apart partition'
    refine (reads _).trans (if_neg fun same => ?_)
    have same : (other, partition') = (worker, partition) := same
    exact apart (congrArg Prod.fst same)
  · rw [consumers_with_]
    exact idle
  · intro key child found
    have found := (reads key).symm.trans found
    split at found
    next here =>
      exact Or.inr ⟨here, (Option.some.inj found).symm⟩
    next => exact Or.inl found

theorem own_poll {read : ShardRead} (done : world.poll worker read = some after)
    : ∃ partition rest, (world.consumers worker).rr = partition :: rest
      ∧ (world.consumers worker).turn = .idle ∧ Own worker world after ∧ after.AtLine worker
      ∧ (∀ key, after.children.get? key = if key = (worker, partition)
          then (world.children.get? key).map (Child.recv (world.offsetFile partition) read)
          else world.children.get? key) := by
  simp only [poll] at done
  split at done
  case h_1 => cases done
  case h_2 partition rest order =>
    simp only [Option.ite_none_right_eq_some] at done
    obtain ⟨idle, done⟩ := done
    obtain rfl := Option.some.inj done
    refine ⟨partition, rest, order, idle, ?_⟩
    generalize asked : ({ world with
      children := world.children.update (fun child => child.worker = worker ∧ child.partition = partition)
        (Child.recv (world.offsetFile partition) read) (Child.recv_key (world.offsetFile partition) read)
      }.with_ worker { world.consumers worker with rr := rest ++ [partition], opening := [] }) = middle
    have beside : middle.Beside worker (middle.deliver worker partition) := beside_deliver
    have reads (key : String × String) : (middle.deliver worker partition).children.get? key
        = if key = (worker, partition)
          then (world.children.get? key).map (Child.recv (world.offsetFile partition) read)
          else world.children.get? key := by
      rw [beside.children, ← asked]
      exact @get?_update_child world _ (Child.recv_key _ read) worker partition key
    have turn : (middle.consumers worker).turn = .idle := by
      rw [← asked, consumers_with_]
      exact idle
    refine ⟨⟨?_, ?_, ?_, ?_, ?_⟩, ?_, reads⟩
    · rw [beside.source, ← asked]
      rfl
    · rw [beside.ledger, ← asked]
      rfl
    · rw [beside.committed, ← asked]
      rfl
    · intro other apart
      rw [beside.consumers other apart, ← asked, consumers_with_other apart]
    · intro other apart partition'
      rw [reads, if_neg fun same => apart (congrArg Prod.fst same)]
    · cases has : middle.line? worker partition with
      | none =>
          rw [deliver_none has]
          exact .of_idle turn
      | some line =>
          obtain ⟨turn, inflight⟩ := deliver_some has
          have still : (middle.deliver worker partition).line? worker partition = some line :=
            (line?_congr (congrArg (Table.get? · _) beside.children)).trans has
          simp only [AtLine, turn, inflight, still, shard, beside.source]
          simp

/-- Where a source's position is once another is committed, if one is. -/
def movedTo (position : Option (SourceKey × Nat)) (key : SourceKey) (cursor : Nat) : Nat :=
  match position with
  | some place => if key = place.1 then place.2 else cursor
  | none => cursor

/-- A commit of a consumer's line with the position it was received with, as a run or as a dead
letter: the position is the shard's, and the other positions and the leases stay.
-/
structure Committed (worker partition : String) (handle : Nat) (position : Option (SourceKey × Nat))
    (before after : ShardedWorld) : Prop where
  turn
    : (before.consumers worker).turn = .received partition handle position
  source
    : after.source = before.source
  children
    : after.children = before.children
  consumers
    : ∀ other, other ≠ worker → after.consumers other = before.consumers other
  then_
    : after.consumers worker = { before.consumers worker with turn := .committed partition handle }
  committed
    : after.committed = (before.line? worker partition).toList.map (fun line => (partition, line))
      ++ before.committed
  partitions
    : after.ledger.partitions = before.ledger.partitions
  offsets
    : ∀ key, after.ledger.cursor key = movedTo position key (before.ledger.cursor key)

theorem cursor_of_offset {before after : Ledger} {now : Time} {position : Option (SourceKey × Nat)}
    (own : ∀ place, position = some place →
      after.offsets.get? place.1.offsetKey = some ⟨place.1.offsetKey, place.2, now⟩)
    (others : ∀ name, (∀ place, position = some place → name ≠ place.1.offsetKey) →
      after.offsets.get? name = before.offsets.get? name) (key : SourceKey)
    : after.cursor key = movedTo position key (before.cursor key) := by
  cases position with
  | none => simp only [movedTo, Ledger.cursor, Ledger.sourceOffset, others key.offsetKey (by intros; contradiction)]
  | some place =>
      simp only [movedTo]
      split_ifs with here
      · subst here
        simp only [Ledger.cursor, Ledger.sourceOffset, own place rfl]
        rfl
      · have apart : key.offsetKey ≠ place.1.offsetKey := fun same =>
          here (SourceKey.offsetKey_injective same)
        simp only [Ledger.cursor, Ledger.sourceOffset]
        rw [others key.offsetKey fun other same => by rwa [← Option.some.inj same]]

theorem ok_of_toOption {Error Value : Type} {result : Except Error Value} {value : Value}
    (made : result.toOption = some value)
    : result = .ok value := by
  cases result with
  | error problem => exact absurd made nofun
  | ok other => exact congrArg Except.ok (Option.some.inj made)

theorem committed_run {env : Env} {now : Time} {submission : Submission}
    (done : world.createRunWithOffset env now worker submission = some after)
    : ∃ partition handle position, Committed worker partition handle position world after := by
  simp only [createRunWithOffset] at done
  split at done
  case h_1 partition handle position turn =>
    obtain ⟨⟨store, ledger⟩, made, rfl⟩ := Option.map_eq_some_iff.mp done
    have written := written_of_createRunFull (ok_of_toOption made)
    refine ⟨partition, handle, position, turn, rfl, rfl, fun _ apart => consumers_with_other apart _,
      consumers_with_ _, rfl, written.partitions, @cursor_of_offset _ _ now _ ?_ ?_⟩
    · rintro ⟨key, next⟩ rfl
      exact written.offset _ rfl
    · intro name apart
      refine written.offsets name fun offset same => ?_
      obtain ⟨⟨key, next⟩, place, rfl⟩ := Option.map_eq_some_iff.mp same
      exact apart _ place
  case h_2 => exact absurd done nofun

theorem committed_letter {now : Time} {payload error : String} {failures : Nat}
    (done : world.recordDeadLetterWithOffset now worker payload error failures = some after)
    : ∃ partition handle position, Committed worker partition handle position world after := by
  simp only [recordDeadLetterWithOffset] at done
  split at done
  case h_1 partition handle position turn =>
    obtain ⟨ledger, recorded, rfl⟩ := Option.map_eq_some_iff.mp done
    obtain ⟨deadLetters, -, rfl⟩ := Option.map_eq_some_iff.mp recorded
    refine ⟨partition, handle, position, turn, rfl, rfl, fun _ apart => consumers_with_other apart _,
      consumers_with_ _, rfl, (Ledger.commitOffset_others ..).2.2, @cursor_of_offset _ _ now _ ?_ ?_⟩
    · rintro ⟨key, next⟩ rfl
      exact (Ledger.offsets_upsertSourceOffset ..).trans (if_pos rfl)
    · intro name apart
      cases position with
      | none => rfl
      | some place =>
          exact (Ledger.offsets_upsertSourceOffset ..).trans (if_neg (apart place rfl))
  case h_2 => exact absurd done nofun

theorem own_ack {mirrored : Bool} (routed : world.AtLine worker)
    (done : world.ack worker mirrored = some after)
    : ∃ partition line, (world.consumers worker).turn = .committed partition line.next
      ∧ world.line? worker partition = some line ∧ Own worker world after
      ∧ (after.consumers worker).turn = .idle
      ∧ (∀ key, after.children.get? key = if key = (worker, partition)
          then (world.children.get? key).map (fun child => { child with inflight := none })
          else world.children.get? key) := by
  simp only [ack] at done
  split at done
  case h_1 partition handle turn =>
    simp only [AtLine, turn] at routed
    obtain ⟨inflight, at_⟩ := routed
    obtain ⟨line, has, rfl⟩ := Option.map_eq_some_iff.mp at_
    obtain rfl := Option.some.inj done
    simp only [inflight]
    have reads := @get?_update_child world (fun child => { child with inflight := none })
      (fun _ => rfl) worker partition
    refine ⟨partition, line, turn, has, ⟨rfl, rfl, rfl, fun _ apart => consumers_with_other apart _, ?_⟩,
      ?_, reads⟩
    · exact fun other apart partition' =>
        (reads _).trans (if_neg fun same => apart (congrArg Prod.fst same))
    · rw [consumers_with_]
  case h_2 => cases done

theorem Routed.commits {partition : String} {handle : Nat} {position : Option (SourceKey × Nat)}
    (routed : world.Routed) (commits : Committed worker partition handle position world after)
    : after.Routed := by
  refine routed.of_worker commits.source commits.consumers (fun _ _ _ => by rw [commits.children]) ?_
  have mine := routed worker
  have lines : after.line? worker partition = world.line? worker partition :=
    line?_congr (by rw [commits.children])
  simp only [AtLine, commits.turn, commits.then_, lines] at mine ⊢
  exact mine.1

theorem Routed.step {env : Env} {op : ShardedOp} (routed : world.Routed)
    (done : step env op world = some after)
    : after.Routed := by
  cases op with
  | engine op => cases done
  | registerSourcePartitions now partitions
  | renewSourcePartitions now worker leaseSecs
  | releaseSourcePartitions now worker =>
      obtain rfl := Option.some.inj done
      exact routed.of_same rfl rfl rfl
  | claimSourcePartitions now worker max leaseSecs =>
      simp only [ShardedWorld.step, claim, Option.ite_none_right_eq_some] at done
      obtain rfl := Option.some.inj done.2
      exact routed.of_same rfl rfl rfl
  | resync worker =>
      obtain ⟨own, idle, -⟩ := own_resync done
      exact routed.of_worker own.source own.consumers own.children (.of_idle idle)
  | openShard worker partition =>
      obtain ⟨own, idle, -⟩ := own_openShard done
      exact routed.of_worker own.source own.consumers own.children (.of_idle idle)
  | poll worker read =>
      obtain ⟨partition, rest, -, -, own, mine, -⟩ := own_poll done
      exact routed.of_worker own.source own.consumers own.children mine
  | createRunWithOffset now worker submission =>
      obtain ⟨partition, handle, position, commits⟩ := committed_run done
      exact routed.commits commits
  | recordDeadLetterWithOffset now worker payload error failures =>
      obtain ⟨partition, handle, position, commits⟩ := committed_letter done
      exact routed.commits commits
  | refuse worker =>
      simp only [ShardedWorld.step] at done
      split at done
      case h_1 partition handle position turn =>
        obtain rfl := Option.some.inj done
        refine routed.of_worker rfl (fun _ apart => consumers_with_other apart _) (fun _ _ _ => rfl) ?_
        have mine := routed worker
        simp only [AtLine, turn, consumers_with_, line?_with_] at mine ⊢
        exact mine.1
      case h_2 => cases done
  | ack worker mirrored =>
      obtain ⟨partition, line, -, -, own, idle, -⟩ := own_ack (routed worker) done
      exact routed.of_worker own.source own.consumers own.children (.of_idle idle)
  | nack worker =>
      simp only [ShardedWorld.step] at done
      split at done
      case h_1 =>
        obtain rfl := Option.some.inj done
        exact routed.of_worker rfl (fun _ apart => consumers_with_other apart _) (fun _ _ _ => rfl)
          (.of_idle (by simp))
      case h_2 => cases done
  | crash worker =>
      obtain rfl := Option.some.inj done
      exact routed.of_worker own_crash.source own_crash.consumers own_crash.children (.of_idle (by simp))

-- Shards that change hands with no line in flight

/-- Steps at which a shard changes hands with no line in flight: it is claimed while no consumer has a
line of it in flight and its claimer has no reader of it left; a consumer opens it, and reads a line
of it, only while it leases it, and what it reads is a text.
-/
def Steady (op : ShardedOp) (world : ShardedWorld) : Prop :=
  match op with
  | .claimSourcePartitions now worker max _ =>
      ∀ row ∈ world.ledger.claimable now world.source worker
          (max - world.children.count (fun child => child.worker = worker)),
        world.children.get? (worker, row.partition) = none
          ∧ world.children.count
            (fun child => child.partition = row.partition ∧ child.inflight.isSome) = 0
  | .openShard worker partition => world.ledger.holds worker (world.shard partition)
  | .poll worker (.line _) =>
      ∀ partition ∈ (world.consumers worker).rr.head?, world.line? worker partition = none →
        world.ledger.holds worker (world.shard partition)
  | .poll _ (.garbled _) => False
  | _ => True

/-- Where a reader reads on, or begins at the earliest. -/
def start (child : Child) : Nat :=
  if child.opened then child.pos else child.dbPosition.getD 0

/-- A reader counts what it reads, and has in flight what it read last. -/
structure Counted (child : Child) : Prop where
  place
    : child.opened → child.place = child.pos
  line
    : ∀ line, child.inflight = some line →
      child.opened ∧ line.past = line.next ∧ line.next = child.pos ∧ line.start < line.next

/-- While a consumer has a line of a shard in flight, no other leases the shard nor has one; the
reader of a consumer that leases its shard is not behind what is committed, nor is a line in flight,
until it is; what is committed of a shard is in order, and none of it past the shard's position.
-/
structure Alone (world : ShardedWorld) : Prop where
  leased
    : ∀ worker partition line, world.line? worker partition = some line →
      ∀ other, world.ledger.holds other (world.shard partition) → other = worker
  alone
    : ∀ worker other partition line line', world.line? worker partition = some line →
      world.line? other partition = some line' → worker = other
  ahead
    : ∀ worker partition child, world.children.get? (worker, partition) = some child →
      world.ledger.holds worker (world.shard partition) →
        world.ledger.cursor (world.shard partition) ≤ start child
  counted
    : ∀ key child, world.children.get? key = some child → Counted child
  fresh
    : ∀ worker partition line, world.line? worker partition = some line →
      (∀ handle, (world.consumers worker).turn ≠ .committed partition handle) →
        world.ledger.cursor (world.shard partition) ≤ line.start
  below
    : ∀ entry ∈ world.committed, entry.2.start < entry.2.past
      ∧ entry.2.past ≤ world.ledger.cursor (world.shard entry.1)
  apart
    : world.committed.Pairwise fun later earlier =>
      later.1 = earlier.1 → earlier.2.past ≤ later.2.start

theorem holds_unique {ledger : Ledger} {worker other partition : String} {source : SourceName}
    (first : ledger.holds worker ⟨source, some partition⟩)
    (second : ledger.holds other ⟨source, some partition⟩)
    : worker = other :=
  Option.some.inj ((first partition rfl).symm.trans (second partition rfl))

theorem line?_eq_some {partition : String} {line : ShardLine}
    : world.line? worker partition = some line
      ↔ ∃ child, world.children.get? (worker, partition) = some child ∧ child.inflight = some line :=
  Option.bind_eq_some_iff

/-- A step of a consumer's own keeps what holds where its readers are not behind, and a line it has in
flight was, or is of a shard that it leases.
-/
theorem Alone.own (alone : world.Alone) (own : Own worker world after)
    (mine : ∀ partition child, after.children.get? (worker, partition) = some child →
      Counted child
        ∧ (world.ledger.holds worker (world.shard partition) →
          world.ledger.cursor (world.shard partition) ≤ start child)
        ∧ ∀ line, child.inflight = some line →
          (world.line? worker partition = some line
            ∨ world.ledger.holds worker (world.shard partition))
          ∧ world.ledger.cursor (world.shard partition) ≤ line.start)
    : after.Alone := by
  have shards (partition : String) : after.shard partition = world.shard partition :=
    congrArg (fun source => (⟨source, some partition⟩ : SourceKey)) own.source
  have others {other : String} (apart : other ≠ worker) (partition : String)
      : after.line? other partition = world.line? other partition :=
    line?_congr (own.children other apart partition)
  have own_leased (partition : String) (line : ShardLine) (has : after.line? worker partition = some line)
      (other : String) (held : world.ledger.holds other (world.shard partition))
      : other = worker := by
    obtain ⟨child, found, inflight⟩ := line?_eq_some.mp has
    obtain old | leases := ((mine partition child found).2.2 line inflight).1
    · exact alone.leased worker partition line old other held
    · exact holds_unique held leases
  have own_alone (other partition : String) (line line' : ShardLine)
      (has : after.line? worker partition = some line)
      (has' : world.line? other partition = some line') : worker = other := by
    obtain ⟨child, found, inflight⟩ := line?_eq_some.mp has
    obtain old | leases := ((mine partition child found).2.2 line inflight).1
    · exact alone.alone worker other partition line line' old has'
    · exact alone.leased other partition line' has' worker leases
  constructor
  case leased =>
    intro one partition line has other held
    rw [shards, own.ledger] at held
    by_cases same : one = worker
    · subst same
      exact own_leased partition line has other held
    · exact alone.leased one partition line ((others same partition).symm.trans has) other held
  case alone =>
    intro one other partition line line' has has'
    by_cases same : one = worker
    · subst same
      by_cases same' : other = one
      · exact same'.symm
      · exact own_alone other partition line line' has ((others same' partition).symm.trans has')
    · have has := (others same partition).symm.trans has
      by_cases same' : other = worker
      · subst same'
        exact (own_alone one partition line' line has' has).symm
      · exact alone.alone one other partition line line' has ((others same' partition).symm.trans has')
  case ahead =>
    intro one partition child found held
    rw [shards, own.ledger] at held ⊢
    by_cases same : one = worker
    · subst same
      exact (mine partition child found).2.1 held
    · exact alone.ahead one partition child ((own.children one same partition).symm.trans found) held
  case counted =>
    rintro ⟨one, partition⟩ child found
    by_cases same : one = worker
    · subst same
      exact (mine partition child found).1
    · exact alone.counted _ child ((own.children one same partition).symm.trans found)
  case fresh =>
    intro one partition line has turn
    rw [shards, own.ledger]
    by_cases same : one = worker
    · subst same
      obtain ⟨child, found, inflight⟩ := line?_eq_some.mp has
      exact ((mine partition child found).2.2 line inflight).2
    · rw [own.consumers one same] at turn
      exact alone.fresh one partition line ((others same partition).symm.trans has) turn
  case below =>
    intro entry listed
    rw [own.committed] at listed
    rw [shards, own.ledger]
    exact alone.below entry listed
  case apart =>
    rw [own.committed]
    exact alone.apart

/-- A step that only writes leases keeps what holds where who leases a shard then did before, or has
no reader of it and finds it with no line in flight.
-/
theorem Alone.leases (alone : world.Alone) {ledger : Ledger}
    (offsets : ledger.offsets = world.ledger.offsets)
    (held : ∀ worker partition, ledger.holds worker (world.shard partition) →
      world.ledger.holds worker (world.shard partition)
        ∨ world.children.get? (worker, partition) = none
          ∧ ∀ other, world.line? other partition = none)
    : { world with ledger }.Alone := by
  have cursors (key : SourceKey) : ledger.cursor key = world.ledger.cursor key := by
    simp only [Ledger.cursor, Ledger.sourceOffset, offsets]
  constructor
  case leased =>
    intro worker partition line has other leases
    obtain before | ⟨-, none_⟩ := held other partition leases
    · exact alone.leased worker partition line has other before
    · cases ((none_ worker).symm.trans has)
  case alone => exact alone.alone
  case ahead =>
    intro worker partition child found leases
    obtain before | ⟨none_, -⟩ := held worker partition leases
    · exact (cursors _).trans_le (alone.ahead worker partition child found before)
    · cases (none_.symm.trans found)
  case counted => exact alone.counted
  case fresh =>
    exact fun worker partition line has turn =>
      (cursors _).trans_le (alone.fresh worker partition line has turn)
  case below =>
    exact fun entry listed =>
      (alone.below entry listed).imp_right fun below => below.trans_eq (cursors _).symm
  case apart => exact alone.apart

/-- A commit of a line that is in flight leaves the shard's position just past it, which is past all
that was committed of the shard.
-/
theorem Alone.commits {partition : String} {handle : Nat} {position : Option (SourceKey × Nat)}
    (alone : world.Alone) (routed : world.AtLine worker)
    (commits : Committed worker partition handle position world after)
    : after.Alone ∧ ∀ key, world.ledger.cursor key ≤ after.ledger.cursor key := by
  simp only [AtLine, commits.turn] at routed
  obtain ⟨⟨-, at_⟩, rfl⟩ := routed
  obtain ⟨line, has, rfl⟩ := Option.map_eq_some_iff.mp at_
  have shards (partition : String) : after.shard partition = world.shard partition :=
    congrArg (fun source => (⟨source, some partition⟩ : SourceKey)) commits.source
  have lines (worker partition : String) : after.line? worker partition = world.line? worker partition :=
    line?_congr (by rw [commits.children])
  have leases (worker : String) (key : SourceKey) : after.ledger.holds worker key
      ↔ world.ledger.holds worker key := by
    rw [Ledger.holds, commits.partitions, Ledger.holds]
  have received (handle : Nat) : (world.consumers worker).turn ≠ .committed partition handle := by
    rw [commits.turn]
    rintro ⟨⟩
  have ahead := alone.fresh worker partition line has received
  obtain ⟨child, found, inflight⟩ := line?_eq_some.mp has
  obtain ⟨opened, past, next, forward⟩ := (alone.counted _ child found).line line inflight
  have here : after.ledger.cursor (world.shard partition) = line.next := by
    rw [commits.offsets, movedTo, if_pos rfl]
  have elsewhere {other : String} (apart : other ≠ partition)
      : after.ledger.cursor (world.shard other) = world.ledger.cursor (world.shard other) := by
    rw [commits.offsets, movedTo, if_neg fun same => apart (Option.some.inj (SourceKey.mk.inj same).2)]
  have forwards (other : String)
      : world.ledger.cursor (world.shard other) ≤ after.ledger.cursor (world.shard other) := by
    by_cases same : other = partition
    · subst same
      rw [here]
      omega
    · exact (elsewhere same).ge
  refine ⟨?_, fun key => ?_⟩
  · constructor
    case leased =>
      intro one other line' has' third held
      rw [shards, leases] at held
      exact alone.leased one other line' ((lines _ _).symm.trans has') third held
    case alone =>
      intro one other partition' line' line'' has' has''
      exact alone.alone one other partition' line' line'' ((lines _ _).symm.trans has')
        ((lines _ _).symm.trans has'')
    case ahead =>
      intro one other child' found' held
      rw [shards, leases] at held
      rw [commits.children] at found'
      rw [shards]
      by_cases same : other = partition
      · subst same
        obtain rfl := alone.leased worker other line has one held
        obtain rfl := Option.some.inj (found.symm.trans found')
        rw [here, start, if_pos opened]
        exact next.le
      · rw [elsewhere same]
        exact alone.ahead one other child' found' held
    case counted =>
      intro key child' found'
      rw [commits.children] at found'
      exact alone.counted key child' found'
    case fresh =>
      intro one other line' has' turn
      have has' := (lines _ _).symm.trans has'
      rw [shards]
      by_cases mine : one = worker
      · subst mine
        have apart : other ≠ partition := by
          rintro rfl
          exact turn line.next (by rw [commits.then_])
        rw [elsewhere apart]
        exact alone.fresh one other line' has' fun handle => by simp [commits.turn]
      · rw [commits.consumers one mine] at turn
        have apart : other ≠ partition := by
          rintro rfl
          exact mine (alone.alone one worker other line' line has' has)
        rw [elsewhere apart]
        exact alone.fresh one other line' has' turn
    case below =>
      intro entry listed
      rw [shards]
      rw [commits.committed, has] at listed
      obtain rfl | listed := List.mem_cons.mp listed
      · rw [here]
        exact ⟨forward.trans_eq past.symm, past.le⟩
      · exact (alone.below entry listed).imp_right fun below => below.trans (forwards _)
    case apart =>
      rw [commits.committed, has]
      refine List.pairwise_cons.mpr ⟨?_, alone.apart⟩
      rintro ⟨other, earlier⟩ listed rfl
      exact (alone.below _ listed).2.trans ahead
  · by_cases same : key = world.shard partition
    · exact same ▸ forwards partition
    · rw [commits.offsets, movedTo, if_neg same]

/-- What a reader of a consumer's was is as it should be, where its line is not committed yet. -/
theorem Alone.child (alone : world.Alone) {partition : String} {child : Child}
    (found : world.children.get? (worker, partition) = some child)
    (turn : ∀ handle, (world.consumers worker).turn ≠ .committed partition handle)
    : Counted child
      ∧ (world.ledger.holds worker (world.shard partition) →
        world.ledger.cursor (world.shard partition) ≤ start child)
      ∧ ∀ line, child.inflight = some line →
        (world.line? worker partition = some line
          ∨ world.ledger.holds worker (world.shard partition))
        ∧ world.ledger.cursor (world.shard partition) ≤ line.start := by
  refine ⟨alone.counted _ child found, alone.ahead worker partition child found, fun line inflight => ?_⟩
  have has := line?_eq_some.mpr ⟨child, found, inflight⟩
  exact ⟨Or.inl has, alone.fresh worker partition line has turn⟩

/-- A reader reads on from where it was, and its consumer leases the shard it reads a line of. -/
theorem Alone.poll {read : ShardRead} (alone : world.Alone) (done : world.poll worker read = some after)
    (steady : Steady (.poll worker read) world)
    : after.Alone := by
  obtain ⟨partition, rest, order, idle, own, -, reads⟩ := own_poll done
  have turn (partition : String) (handle : Nat)
      : (world.consumers worker).turn ≠ .committed partition handle := by
    rw [idle]
    rintro ⟨⟩
  refine alone.own own fun other child found => ?_
  rw [reads] at found
  split_ifs at found with here
  · obtain ⟨before, was, rfl⟩ := Option.map_eq_some_iff.mp found
    obtain rfl : other = partition := congrArg Prod.snd here
    have mine := alone.child was (turn other)
    rw [Child.recv]
    split
    case isTrue => exact mine
    case isFalse empty =>
      obtain ⟨counted, ahead, -⟩ := mine
      have none_ : before.inflight = none := by simpa using empty
      have opens : start before
          ≤ if before.opened then before.pos else before.dbPosition.getD (world.offsetFile other) := by
        rw [start]
        split_ifs
        · exact le_rfl
        · cases before.dbPosition <;> simp
      have place : (if before.opened then before.place
            else before.dbPosition.getD (world.offsetFile other))
          = if before.opened then before.pos else before.dbPosition.getD (world.offsetFile other) := by
        split_ifs with opened
        · exact counted.place opened
        · rfl
      rw [place]
      cases read with
      | dry count =>
          refine ⟨⟨fun _ => rfl, fun line inflight => ?_⟩, fun held => ?_, fun line inflight => ?_⟩
          · cases (none_.symm.trans inflight)
          · exact ((ahead held).trans opens).trans (Nat.le_add_right _ _)
          · cases (none_.symm.trans inflight)
      | line before_ =>
          have holds : world.ledger.holds worker (world.shard other) := by
            refine steady other (by rw [order]; rfl) ?_
            rw [line?, was]
            exact none_
          refine ⟨⟨fun _ => rfl, fun line inflight => ?_⟩, fun held => ?_, fun line inflight => ?_⟩
          · obtain rfl := Option.some.inj inflight
            refine ⟨rfl, rfl, rfl, ?_⟩
            dsimp only
            omega
          · have := (ahead held).trans opens
            rw [start, if_pos rfl]
            dsimp only
            omega
          · obtain rfl := Option.some.inj inflight
            exact ⟨Or.inr holds, (ahead holds).trans opens⟩
      | garbled count => cases steady
  · exact alone.child found (turn other)

theorem Alone.step {env : Env} {op : ShardedOp} (alone : world.Alone) (routed : world.Routed)
    (steady : Steady op world) (done : step env op world = some after)
    : after.Alone ∧ ∀ key, world.ledger.cursor key ≤ after.ledger.cursor key := by
  have still {worker : String} (own : Own worker world after) (kept : after.Alone)
      : after.Alone ∧ ∀ key, world.ledger.cursor key ≤ after.ledger.cursor key :=
    ⟨kept, fun key => by rw [own.ledger]⟩
  cases op with
  | engine op => cases done
  | registerSourcePartitions now partitions =>
      obtain rfl := Option.some.inj done
      exact ⟨alone.leases rfl fun _ _ held => Or.inl (Ledger.holds_registerSourcePartitions held),
        fun _ => le_rfl⟩
  | renewSourcePartitions now worker leaseSecs =>
      obtain rfl := Option.some.inj done
      exact ⟨alone.leases rfl fun _ _ held => Or.inl (Ledger.holds_renewSourcePartitions held),
        fun _ => le_rfl⟩
  | claimSourcePartitions now worker max leaseSecs =>
      simp only [ShardedWorld.step, claim, Option.ite_none_right_eq_some] at done
      obtain rfl := Option.some.inj done.2
      refine ⟨alone.leases rfl fun other partition held => ?_, fun _ => le_rfl⟩
      obtain before | ⟨rfl, row, among, -, given⟩ := Ledger.holds_claimSourcePartitions held
      · exact Or.inl before
      · obtain rfl := Option.some.inj given
        obtain ⟨none_, idle⟩ := steady row among
        refine Or.inr ⟨none_, fun third => ?_⟩
        cases has : world.line? third row.partition with
        | none => rfl
        | some line =>
            obtain ⟨child, found, inflight⟩ := line?_eq_some.mp has
            have named : (child.worker, child.partition) = (third, row.partition) :=
              Table.key_of_get? found
            have counted : 0 < world.children.count
                (fun child => child.partition = row.partition ∧ child.inflight.isSome) :=
              List.countP_pos_iff.mpr ⟨child, Table.mem_of_get? found,
                decide_eq_true ⟨congrArg Prod.snd named, by simp [inflight]⟩⟩
            omega
  | releaseSourcePartitions now worker =>
      obtain rfl := Option.some.inj done
      exact ⟨alone.leases rfl fun _ _ held => Or.inl (Ledger.holds_releaseSourcePartitions held),
        fun _ => le_rfl⟩
  | resync worker =>
      obtain ⟨own, idle, kept⟩ := own_resync done
      refine still own (alone.own own fun partition child found => ?_)
      have turn : (world.consumers worker).turn = .idle := by
        simp only [ShardedWorld.step, ShardedWorld.resync, Option.ite_none_right_eq_some] at done
        exact done.1
      exact alone.child (kept _ child found) fun handle => by simp [turn]
  | openShard worker partition =>
      obtain ⟨own, idle, kept⟩ := own_openShard done
      refine still own (alone.own own fun other child found => ?_)
      have turn : (world.consumers worker).turn = .idle := by
        simp only [ShardedWorld.step, ShardedWorld.openShard, Option.ite_none_right_eq_some] at done
        exact done.1.1
      obtain old | ⟨here, rfl⟩ := kept _ child found
      · exact alone.child old fun handle => by simp [turn]
      · obtain rfl : other = partition := congrArg Prod.snd here
        exact ⟨⟨(by rintro ⟨⟩), (by rintro _ ⟨⟩)⟩, fun _ => le_rfl, (by rintro _ ⟨⟩)⟩
  | poll worker read =>
      obtain ⟨-, -, -, -, own, -, -⟩ := own_poll done
      exact still own (alone.poll done steady)
  | createRunWithOffset now worker submission =>
      obtain ⟨partition, handle, position, commits⟩ := committed_run done
      exact alone.commits (routed worker) commits
  | recordDeadLetterWithOffset now worker payload error failures =>
      obtain ⟨partition, handle, position, commits⟩ := committed_letter done
      exact alone.commits (routed worker) commits
  | refuse worker =>
      simp only [ShardedWorld.step] at done
      split at done
      case h_1 partition handle position turn =>
        obtain rfl := Option.some.inj done
        have own : Own worker world (world.with_ worker { world.consumers worker with
            turn := .refused partition handle }) :=
          ⟨rfl, rfl, rfl, fun _ apart => consumers_with_other apart _, fun _ _ _ => rfl⟩
        exact still own (alone.own own fun _ child found =>
          alone.child found fun handle => by simp [turn])
      case h_2 => cases done
  | ack worker mirrored =>
      obtain ⟨partition, line, turn, has, own, idle, reads⟩ := own_ack (routed worker) done
      refine still own (alone.own own fun other child found => ?_)
      rw [reads] at found
      split_ifs at found with here
      · obtain ⟨before, was, rfl⟩ := Option.map_eq_some_iff.mp found
        exact ⟨⟨(alone.counted _ before was).place, (by rintro _ ⟨⟩)⟩, alone.ahead worker other before was, (by rintro _ ⟨⟩)⟩
      · refine alone.child found fun handle => ?_
        rw [turn]
        intro same
        exact here (congrArg (Prod.mk worker) (Turn.committed.inj same).1.symm)
  | nack worker =>
      simp only [ShardedWorld.step] at done
      split at done
      case h_1 partition handle turn =>
        obtain rfl := Option.some.inj done
        have own : Own worker world (world.with_ worker { world.consumers worker with turn := .idle }) :=
          ⟨rfl, rfl, rfl, fun _ apart => consumers_with_other apart _, fun _ _ _ => rfl⟩
        exact still own (alone.own own fun _ child found =>
          alone.child found fun handle => by simp [turn])
      case h_2 => cases done
  | crash worker =>
      obtain rfl := Option.some.inj done
      refine still own_crash (alone.own own_crash fun partition child found => ?_)
      simp only [with_, Table.get?_delete] at found
      obtain ⟨was, kept⟩ := Option.filter_eq_some_iff.mp found
      have named : (child.worker, child.partition) = (worker, partition) := Table.key_of_get? was
      exact absurd (congrArg Prod.fst named) (by simpa using kept)

-- Runs

/-- Each part of a shard was committed once at most, and in the shard's order. -/
def CommittedOnce (world : ShardedWorld) : Prop :=
  (∀ entry ∈ world.committed, entry.2.start < entry.2.past)
    ∧ world.committed.Pairwise fun later earlier =>
      later.1 = earlier.1 → earlier.2.past ≤ later.2.start

theorem Alone.once (alone : world.Alone)
    : world.CommittedOnce :=
  ⟨fun entry listed => (alone.below entry listed).1, alone.apart⟩

theorem Alone.init (source : SourceName)
    : ({ source } : ShardedWorld).Alone where
  leased := nofun
  alone := nofun
  ahead := nofun
  counted := nofun
  fresh := nofun
  below := nofun
  apart := .nil

end ShardedWorld

/-- The consumer whose line a step makes a run or parks. -/
def ShardedOp.commits : ShardedOp → Option String
  | .createRunWithOffset _ worker _ => some worker
  | .recordDeadLetterWithOffset _ worker _ _ _ => some worker
  | _ => none

/-- What a commit of a history does with a consumer's line: as a run or a dead letter it moves the
position of the shard the line came from to just past the line, and no other; an acknowledgement
takes the line from the reader of that shard, and a refusal leaves it there.
-/
structure RoutedCommit (commit : Commit ShardedWorld ShardedOp) : Prop where
  commits
    : ∀ worker ∈ commit.label.commits, ∃ partition line,
      (commit.before.consumers worker).turn
        = .received partition line.next (some (commit.before.shard partition, line.next))
      ∧ commit.before.line? worker partition = some line
      ∧ commit.after.ledger.cursor (commit.before.shard partition) = line.next
      ∧ ∀ key, key ≠ commit.before.shard partition →
        commit.after.ledger.cursor key = commit.before.ledger.cursor key
  acked
    : ∀ worker mirrored, commit.label = .ack worker mirrored → ∃ partition line,
      (commit.before.consumers worker).turn = .committed partition line.next
      ∧ commit.before.line? worker partition = some line
      ∧ commit.after.line? worker partition = none
      ∧ ∀ key, key ≠ (worker, partition) →
        commit.after.children.get? key = commit.before.children.get? key
  nacked
    : ∀ worker, commit.label = .nack worker → ∃ partition line,
      (commit.before.consumers worker).turn = .refused partition line.next
      ∧ commit.before.line? worker partition = some line
      ∧ commit.after.children = commit.before.children

/-- A commit of a shard's line is by a consumer that no other has taken the shard over from, and no
position moves backwards.
-/
structure FencedCommit (commit : Commit ShardedWorld ShardedOp) : Prop where
  leased
    : ∀ worker ∈ commit.label.commits, ∀ partition handle position,
      (commit.before.consumers worker).turn = .received partition handle position →
        ∀ other, commit.before.ledger.holds other (commit.before.shard partition) → other = worker
  forward
    : ∀ key, commit.before.ledger.cursor key ≤ commit.after.ledger.cursor key

theorem sharded_cases {env : Env} {op : ShardedOp} {world : ShardedWorld}
    {commit : Commit ShardedWorld ShardedOp}
    (member : commit ∈ commitsFrom op world (world.commits env op))
    : (∃ before after, commit.before = { world with engine := before }
        ∧ commit.after = { world with engine := after } ∧ ∃ op, commit.label = .engine op)
      ∨ ∃ after, ShardedWorld.step env op world = some after ∧ commit = ⟨op, world, after⟩ := by
  cases op with
  | engine op =>
      have engines (states : List World) (engine : World)
          (member : commit ∈ commitsFrom (ShardedOp.engine op) { world with engine }
            (states.map fun engine => { world with engine }))
          : ∃ before after, commit.before = { world with engine := before }
            ∧ commit.after = { world with engine := after } := by
        induction states generalizing engine with
        | nil => exact absurd member List.not_mem_nil
        | cons head rest ih =>
            obtain rfl | later := List.mem_cons.mp member
            · exact ⟨engine, head, rfl, rfl⟩
            · exact ih head later
      obtain ⟨before, after, was, is⟩ := engines _ world.engine member
      exact Or.inl ⟨before, after, was, is, op, label_of_mem_commitsFrom member⟩
  | _ => exact Or.inr (mem_commitsFrom_toList.mp member)

theorem routed_step {env : Env} {op : ShardedOp} {world after : ShardedWorld} (routed : world.Routed)
    (done : ShardedWorld.step env op world = some after)
    : RoutedCommit ⟨op, world, after⟩ := by
  have commits {worker partition : String} {handle : Nat} {position : Option (SourceKey × Nat)}
      (commits : ShardedWorld.Committed worker partition handle position world after)
      : ∃ partition line, (world.consumers worker).turn
            = .received partition line.next (some (world.shard partition, line.next))
          ∧ world.line? worker partition = some line
          ∧ after.ledger.cursor (world.shard partition) = line.next
          ∧ ∀ key, key ≠ world.shard partition →
            after.ledger.cursor key = world.ledger.cursor key := by
    have mine := routed worker
    simp only [ShardedWorld.AtLine, commits.turn] at mine
    obtain ⟨⟨-, at_⟩, rfl⟩ := mine
    obtain ⟨line, has, rfl⟩ := Option.map_eq_some_iff.mp at_
    refine ⟨partition, line, commits.turn, has, ?_, fun key apart => ?_⟩
    · rw [commits.offsets, ShardedWorld.movedTo, if_pos rfl]
    · rw [commits.offsets, ShardedWorld.movedTo, if_neg apart]
  constructor
  case commits =>
    intro worker own
    cases op with
    | createRunWithOffset now worker' submission =>
        obtain rfl := Option.some.inj own
        obtain ⟨partition, handle, position, committed⟩ := ShardedWorld.committed_run done
        exact commits committed
    | recordDeadLetterWithOffset now worker' payload error failures =>
        obtain rfl := Option.some.inj own
        obtain ⟨partition, handle, position, committed⟩ := ShardedWorld.committed_letter done
        exact commits committed
    | _ => exact absurd own nofun
  case acked =>
    rintro worker mirrored rfl
    obtain ⟨partition, line, turn, has, -, -, reads⟩ := ShardedWorld.own_ack (routed worker) done
    refine ⟨partition, line, turn, has, ?_, fun key apart => ?_⟩
    · rw [ShardedWorld.line?, reads, if_pos rfl]
      cases world.children.get? (worker, partition) <;> rfl
    · rw [reads, if_neg apart]
  case nacked =>
    rintro worker rfl
    simp only [ShardedWorld.step] at done
    split at done
    case h_1 partition handle turn =>
      obtain rfl := Option.some.inj done
      have mine := routed worker
      simp only [ShardedWorld.AtLine, turn] at mine
      obtain ⟨line, has, rfl⟩ := Option.map_eq_some_iff.mp mine.2
      exact ⟨partition, line, turn, has, rfl⟩
    case h_2 => exact absurd done nofun

instance decidableSteadyShards
    : ∀ (op : ShardedOp) (world : ShardedWorld), Decidable (ShardedWorld.Steady op world)
  | .claimSourcePartitions .., _ => inferInstanceAs (Decidable (∀ _ ∈ _, _ ∧ _))
  | .openShard .., _ => inferInstanceAs (Decidable (Ledger.holds ..))
  | .poll _ (.line _), _ => inferInstanceAs (Decidable (∀ _ ∈ _, _ → _))
  | .poll _ (.garbled _), _ => inferInstanceAs (Decidable False)
  | .poll _ (.dry _), _ | .engine _, _ | .registerSourcePartitions .., _
  | .renewSourcePartitions .., _ | .releaseSourcePartitions .., _ | .resync _, _
  | .createRunWithOffset .., _ | .recordDeadLetterWithOffset .., _ | .refuse _, _ | .ack .., _
  | .nack _, _ | .crash _, _ => inferInstanceAs (Decidable True)

/-- A consumer claims a shard of lines of ten bytes, opens it and reads its next line. -/
def readsShard (now : Time) (worker : String) : List ShardedOp :=
  [.claimSourcePartitions now worker 1 30, .resync worker, .openShard worker "a.ndjson",
    .poll worker (.line 9)]

/-- A consumer that made a line a run dies, and once its lease ran out another, whose first try of the
next line comes to nothing, parks that.
-/
def handedOver : List ShardedOp :=
  .registerSourcePartitions 0 ["a.ndjson"] :: readsShard 0 "first"
    ++ [.createRunWithOffset 0 "first" (submit plainReport 0), .ack "first" true, .crash "first"]
    ++ readsShard (seconds 31) "second"
    ++ [.refuse "second", .nack "second", .poll "second" (.dry 0),
      .recordDeadLetterWithOffset (seconds 32) "second" "" "" 2, .ack "second" true]

/-- A consumer whose lease ran out commits the line that its successor has committed. -/
def committedTwice : List ShardedOp :=
  .registerSourcePartitions 0 ["a.ndjson"] :: readsShard 0 "first" ++ readsShard (seconds 31) "second"
    ++ [.createRunWithOffset (seconds 32) "second" (submit plainReport 0), .ack "second" true,
      .createRunWithOffset (seconds 33) "first" (submit plainReport 1), .ack "first" true]

end Dagron.Store
