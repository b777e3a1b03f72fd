import Dagron.Store.Shed
import Mathlib.Algebra.BigOperators.Group.List.Basic
import Mathlib.Data.Int.Cast.Lemmas
import Mathlib.Data.List.Dedup
import Mathlib.Tactic.Tauto

/-! A spool is shed one delivery at a time, each of them the first in order of those that are due: what is
leased stays, nothing that stays comes before what is shed, and the budget is kept or nothing more is due.
-/

namespace Dagron.Store

open Dagron.Library

-- The spool

theorem sum_filter_ne {Item Key : Type} [DecidableEq Key] (key : Item → Key) (weight : Item → Int)
    {items : List Item} (distinct : (items.map key).Nodup) {item : Item} (member : item ∈ items)
    : ((items.filter fun other => key other ≠ key item).map weight).sum
      = (items.map weight).sum - weight item := by
  induction items with
  | nil => cases member
  | cons head rest ih =>
      rw [List.map_cons, List.nodup_cons] at distinct
      by_cases same : key head = key item
      · have alone : ∀ other ∈ rest, key other ≠ key item := fun other there again =>
          distinct.1 (same ▸ again ▸ List.mem_map_of_mem there)
        have first : item = head := by
          rcases List.mem_cons.mp member with rfl | later
          · rfl
          · exact absurd rfl (alone item later)
        subst first
        rw [List.filter_cons_of_neg (by simp), List.filter_eq_self.mpr (by simpa using alone),
          List.map_cons, List.sum_cons]
        omega
      · have later : item ∈ rest := by
          rcases List.mem_cons.mp member with rfl | later
          · exact absurd rfl same
          · exact later
        rw [List.filter_cons_of_pos (by simpa using same), List.map_cons, List.sum_cons, List.map_cons,
          List.sum_cons, ih distinct.2 later]
        omega

theorem length_filter_ne {Item Key : Type} [DecidableEq Key] (key : Item → Key)
    {items : List Item} (distinct : (items.map key).Nodup) {item : Item} (member : item ∈ items)
    : (items.filter fun other => key other ≠ key item).length + 1 = items.length := by
  have sum := sum_filter_ne key (fun _ => 1) distinct member
  simp only [List.map_const', List.sum_replicate, nsmul_eq_mul, mul_one] at sum
  omega

namespace OutboxDb

variable {db : OutboxDb} {sink : String} {dueNow : Time}

theorem mem_spool {item : Spooled}
    : item ∈ db.spool sink
      ↔ item.1 ∈ db.deliveries ∧ item.1.sink = sink ∧ item.1.status = .pending
        ∧ db.events.get? item.1.outboxId = some item.2 := by
  obtain ⟨row, event⟩ := item
  unfold spool
  rw [List.mem_filterMap]
  constructor
  · rintro ⟨_, selected, found⟩
    obtain ⟨event', hevent, same⟩ := Option.map_eq_some_iff.mp found
    cases same
    obtain ⟨member, rfl, pending⟩ := Table.mem_select.mp selected
    exact ⟨member, rfl, pending, hevent⟩
  · rintro ⟨member, named, pending, hevent⟩
    exact ⟨row, Table.mem_select.mpr ⟨member, named, pending⟩, by rw [hevent]; rfl⟩

theorem mem_dueSpool {item : Spooled}
    : item ∈ db.dueSpool sink dueNow ↔ item ∈ db.spool sink ∧ item.1.nextAttemptAt ≤ dueNow := by
  simp [dueSpool]

theorem nodup_spool (db : OutboxDb) (sink : String)
    : ((db.spool sink).map fun item => item.1.outboxId).Nodup := by
  have rows : (db.spool sink).Nodup := by
    refine List.Nodup.filterMap ?_ (db.deliveries.nodup.of_map.filter _)
    intro first second item hfirst hsecond
    obtain ⟨_, _, rfl⟩ := Option.map_eq_some_iff.mp hfirst
    obtain ⟨_, _, same⟩ := Option.map_eq_some_iff.mp hsecond
    exact (Prod.mk.inj same).1.symm
  refine rows.map_on fun first hfirst second hsecond same => ?_
  obtain ⟨there, named, _, found⟩ := mem_spool.mp hfirst
  obtain ⟨there', named', _, found'⟩ := mem_spool.mp hsecond
  have row : first.1 = second.1 :=
    Table.eq_of_key_eq there there' (Prod.ext same (named.trans named'.symm))
  rw [row, found'] at found
  exact Prod.ext row (Option.some_inj.mp found).symm

theorem spool_update (cond : DeliveryRow → Prop) [DecidablePred cond] (reason : String)
    : { db with
        deliveries := db.deliveries.update cond fun row =>
          { row with status := .shed, lastError := some reason } }.spool sink
      = (db.spool sink).filter fun item => ¬ cond item.1 := by
  unfold spool Table.select Table.update
  dsimp only
  induction db.deliveries.rows with
  | nil => rfl
  | cons row rows ih =>
      rw [List.map_cons]
      by_cases hit : cond row
      · rw [if_pos hit, List.filter_cons_of_neg (by simp), ih]
        by_cases pending : row.sink = sink ∧ row.status = .pending
        · rw [List.filter_cons_of_pos (by simpa using pending), List.filterMap_cons]
          cases db.events.get? row.outboxId with
          | none => rfl
          | some event => simp [hit]
        · rw [List.filter_cons_of_neg (by simpa using pending)]
      · rw [if_neg hit]
        by_cases pending : row.sink = sink ∧ row.status = .pending
        · rw [List.filter_cons_of_pos (by simpa using pending),
            List.filter_cons_of_pos (by simpa using pending), List.filterMap_cons, List.filterMap_cons,
            ih]
          cases db.events.get? row.outboxId with
          | none => rfl
          | some event => simp [hit]
        · rw [List.filter_cons_of_neg (by simpa using pending),
            List.filter_cons_of_neg (by simpa using pending), ih]

theorem spool_shedOne (id : Nat) (reason : String)
    : (db.shedOne sink id reason).spool sink
      = (db.spool sink).filter fun item => item.1.outboxId ≠ id := by
  unfold shedOne mark
  rw [spool_update]
  refine List.filter_congr fun item member => ?_
  obtain ⟨_, named, pending, _⟩ := mem_spool.mp member
  simp [named, pending]

theorem dueSpool_shedOne (id : Nat) (reason : String)
    : (db.shedOne sink id reason).dueSpool sink dueNow
      = (db.dueSpool sink dueNow).filter fun item => item.1.outboxId ≠ id := by
  unfold dueSpool
  rw [spool_shedOne, List.filter_comm]

theorem nodup_dueSpool (db : OutboxDb) (sink : String) (dueNow : Time)
    : ((db.dueSpool sink dueNow).map fun item => item.1.outboxId).Nodup :=
  (List.filter_sublist.map _).nodup (db.nodup_spool sink)

theorem pendingBytes_shedOne {item : Spooled} (member : item ∈ db.spool sink) (reason : String)
    : (db.shedOne sink item.1.outboxId reason).pendingBytes sink
      = db.pendingBytes sink - payloadBytes item.2 := by
  unfold pendingBytes
  rw [spool_shedOne]
  exact sum_filter_ne (fun item : Spooled => item.1.outboxId) _ (db.nodup_spool sink) member

theorem countPending_eq_one {item : Spooled} (member : item ∈ db.spool sink)
    : db.countPending sink item.1.outboxId = 1 := by
  obtain ⟨there, named, pending, _⟩ := mem_spool.mp member
  have most : db.countPending sink item.1.outboxId ≤ 1 := by
    refine @Table.count_le_length _ _ _ db.deliveries _ _ _ [(item.1.outboxId, sink)] ?_
    rintro row _ ⟨named', same, _⟩
    exact List.mem_singleton.mpr (Prod.ext same named')
  have some_ : 0 < db.countPending sink item.1.outboxId := by
    refine List.countP_pos_iff.mpr ⟨item.1, there, ?_⟩
    simp [named, pending]
  omega

end OutboxDb

-- One delivery at a time

theorem larger_total (size size' time time' : Int)
    : (size' < size ∨ size = size' ∧ time ≤ time') ∨ size < size' ∨ size' = size ∧ time' ≤ time := by
  omega

theorem larger_trans {size size' size'' time time' time'' : Int}
    (before : size' < size ∨ size = size' ∧ time ≤ time')
    (before' : size'' < size' ∨ size' = size'' ∧ time' ≤ time'')
    : size'' < size ∨ size = size'' ∧ time ≤ time'' := by
  omega

instance (largestFirst : Bool) : Std.Total (shedBefore largestFirst) where
  total first second := by
    unfold shedBefore
    cases largestFirst
    · exact Int.le_total _ _
    · exact larger_total _ _ _ _

instance (largestFirst : Bool) : IsTrans Spooled (shedBefore largestFirst) where
  trans first second third := by
    unfold shedBefore
    cases largestFirst
    · exact Int.le_trans
    · exact larger_trans

section Steps

variable {sink : String} {dueNow : Time} {maxBytes : Int} {largestFirst : Bool} {reason : String}

/-- One delivery is shed, the first of the due ones, while more is pending than the budget is. -/
inductive ShedStep (sink : String) (dueNow : Time) (maxBytes : Int) (largestFirst : Bool)
    (reason : String)
    : OutboxDb → OutboxDb → Prop where
  | shed {db : OutboxDb} {item : Spooled}
    : item ∈ db.dueSpool sink dueNow
      → (∀ other ∈ db.dueSpool sink dueNow, shedBefore largestFirst item other)
      → maxBytes < db.pendingBytes sink
      → ShedStep sink dueNow maxBytes largestFirst reason db (db.shedOne sink item.1.outboxId reason)

/-- What a run has counted is so: the bytes left, and each delivery shed or due still. -/
structure Shedding.Exact (sink : String) (dueNow : Time) (all : Nat) (run : Shedding) : Prop where
  pending : run.pending = run.db.pendingBytes sink
  shed : run.shed + (run.db.dueSpool sink dueNow).length = all

/-- Victims that are the first of the due deliveries, in order. -/
structure First (largestFirst : Bool) (due victims : List Spooled) : Prop where
  among : ∀ victim ∈ victims, victim ∈ due
  order : victims.Pairwise (shedBefore largestFirst)
  others : ∀ victim ∈ victims, ∀ other ∈ due, other ∉ victims → shedBefore largestFirst victim other
  distinct : (victims.map fun item => item.1.outboxId).Nodup

theorem first_victims (db : OutboxDb)
    : First largestFirst (db.dueSpool sink dueNow) (db.victims sink dueNow largestFirst) := by
  have same := List.perm_insertionSort (shedBefore largestFirst) (db.dueSpool sink dueNow)
  have sorted := List.pairwise_insertionSort (shedBefore largestFirst) (db.dueSpool sink dueNow)
  have parts := List.take_append_drop shedPage
    ((db.dueSpool sink dueNow).insertionSort (shedBefore largestFirst))
  rw [← parts, List.pairwise_append] at sorted
  refine ⟨fun victim member => same.subset (List.mem_of_mem_take member), sorted.1, ?_, ?_⟩
  · intro victim member other there later
    refine sorted.2.2 victim member other ?_
    have everywhere := same.symm.subset there
    rw [← parts, List.mem_append] at everywhere
    exact everywhere.resolve_left later
  · exact ((List.take_sublist _ _).map _).nodup
      (((same.map _).nodup_iff).mpr (db.nodup_dueSpool sink dueNow))

theorem First.tail {db : OutboxDb} {victim : Spooled} {rest : List Spooled}
    (first : First largestFirst (db.dueSpool sink dueNow) (victim :: rest))
    : First largestFirst ((db.shedOne sink victim.1.outboxId reason).dueSpool sink dueNow) rest := by
  obtain ⟨among, order, others, distinct⟩ := first
  obtain ⟨head, order⟩ := List.pairwise_cons.mp order
  rw [List.map_cons, List.nodup_cons] at distinct
  rw [OutboxDb.dueSpool_shedOne]
  refine ⟨?_, order, ?_, distinct.2⟩
  · intro item member
    refine List.mem_filter.mpr ⟨among item (List.mem_cons_of_mem _ member), ?_⟩
    have apart : item.1.outboxId ≠ victim.1.outboxId := fun same =>
      distinct.1 (same ▸ List.mem_map_of_mem member)
    simpa using apart
  · intro item member other there later
    obtain ⟨due, apart⟩ := List.mem_filter.mp there
    refine others item (List.mem_cons_of_mem _ member) other due ?_
    intro again
    rcases List.mem_cons.mp again with rfl | again
    · simp at apart
    · exact later again

theorem First.head {due : List Spooled} {victim : Spooled} {rest : List Spooled}
    (first : First largestFirst due (victim :: rest))
    : ∀ other ∈ due, shedBefore largestFirst victim other := by
  intro other there
  by_cases among : other ∈ victim :: rest
  · rcases List.mem_cons.mp among with rfl | later
    · rcases total_of (shedBefore largestFirst) other other with same | same <;> exact same
    · exact (List.pairwise_cons.mp first.order).1 other later
  · exact first.others victim List.mem_cons_self other there among

/-- A page is shed one delivery at a time, at least one if more is pending than the budget is. -/
theorem shedVictims_spec {victims : List Spooled} {run : Shedding} {all : Nat}
    (first : First largestFirst (run.db.dueSpool sink dueNow) victims)
    (exact_ : run.Exact sink dueNow all)
    : Relation.ReflTransGen (ShedStep sink dueNow maxBytes largestFirst reason) run.db
        (shedVictims sink maxBytes reason victims run).db
      ∧ (shedVictims sink maxBytes reason victims run).Exact sink dueNow all
      ∧ (run.progressed = true ∨ (maxBytes < run.pending ∧ victims ≠ []) →
        (shedVictims sink maxBytes reason victims run).progressed = true) := by
  induction victims generalizing run with
  | nil =>
      refine ⟨.refl, exact_, ?_⟩
      rintro (progressed | ⟨_, absurd_⟩)
      · exact progressed
      · exact absurd rfl absurd_
  | cons victim rest ih =>
      rw [shedVictims]
      by_cases kept : run.pending ≤ maxBytes
      · rw [if_pos kept]
        refine ⟨.refl, exact_, ?_⟩
        rintro (progressed | ⟨exceeds, _⟩)
        · exact progressed
        · omega
      · have due := first.among victim List.mem_cons_self
        have spooled := (OutboxDb.mem_dueSpool.mp due).1
        rw [if_neg kept]
        simp only [OutboxDb.countPending_eq_one spooled, if_true]
        have next := @ih ⟨run.db.shedOne sink victim.1.outboxId reason, run.shed + 1,
          run.pending - payloadBytes victim.2, true⟩ first.tail ?_
        · refine ⟨.head ?_ next.1, next.2.1, fun _ => next.2.2 (Or.inl rfl)⟩
          exact .shed due first.head (by rw [← exact_.pending]; omega)
        · constructor
          · rw [OutboxDb.pendingBytes_shedOne spooled, ← exact_.pending]
          · dsimp only
            have shorter := length_filter_ne (fun item : Spooled => item.1.outboxId)
              (run.db.nodup_dueSpool sink dueNow) due
            rw [OutboxDb.dueSpool_shedOne]
            have before := exact_.shed
            omega

theorem shedPages_spec {run : Shedding} {all : Nat} (exact_ : run.Exact sink dueNow all)
    : Relation.ReflTransGen (ShedStep sink dueNow maxBytes largestFirst reason) run.db
        (shedPages sink dueNow maxBytes largestFirst reason run).db
      ∧ (shedPages sink dueNow maxBytes largestFirst reason run).Exact sink dueNow all
      ∧ ((shedPages sink dueNow maxBytes largestFirst reason run).db.pendingBytes sink ≤ maxBytes
        ∨ (shedPages sink dueNow maxBytes largestFirst reason run).db.dueSpool sink dueNow = []) := by
  induction hsize : run.size sink using Nat.strongRecOn generalizing run with
  | _ size ih =>
      rw [shedPages]
      by_cases kept : run.pending ≤ maxBytes
      · rw [if_pos kept]
        exact ⟨.refl, exact_, Or.inl (exact_.pending ▸ kept)⟩
      · rw [if_neg kept]
        have first : First largestFirst (run.db.dueSpool sink dueNow)
          (run.db.victims sink dueNow largestFirst) := first_victims run.db
        by_cases none_ : run.db.victims sink dueNow largestFirst = []
        · simp only [none_, if_true]
          refine ⟨.refl, exact_, Or.inr ?_⟩
          -- A page is empty only where nothing is due.
          have sorted := List.take_eq_nil_iff.mp none_
          have empty := sorted.resolve_left (by decide)
          exact List.length_eq_zero_iff.mp
            (List.length_insertionSort (shedBefore largestFirst) _ ▸ congrArg List.length empty)
        · simp only [none_, if_false]
          have still : Shedding.Exact sink dueNow all { run with progressed := false } :=
            ⟨exact_.pending, exact_.shed⟩
          obtain ⟨steps, exact', progress⟩ :=
            @shedVictims_spec sink dueNow maxBytes largestFirst reason _
              { run with progressed := false } all first still
          have progressed := progress (Or.inr ⟨Int.not_le.mp kept, none_⟩)
          rw [dif_pos progressed]
          have less := (size_shedVictims sink maxBytes reason
            (run.db.victims sink dueNow largestFirst) { run with progressed := false }).2 progressed rfl
          obtain ⟨steps', exact'', kept'⟩ := ih _ (hsize ▸ less) exact' rfl
          exact ⟨steps.trans steps', exact'', kept'⟩

-- What becomes of a delivery

/-- An outbox whose sink's due deliveries are shed or as they were; so is all else in it. -/
structure Sheds (sink : String) (dueNow : Time) (db db' : OutboxDb) : Prop where
  events : db'.events = db.events
  sinks : db'.sinks = db.sinks
  since : db'.perSinkSince = db.perSinkSince
  delivery : ∀ key, db'.deliveries.get? key = db.deliveries.get? key
    ∨ ∃ row reason, db.deliveries.get? key = some row ∧ row.sink = sink ∧ row.status = .pending
      ∧ row.nextAttemptAt ≤ dueNow
      ∧ db'.deliveries.get? key = some { row with status := .shed, lastError := some reason }

theorem Sheds.refl (db : OutboxDb)
    : Sheds sink dueNow db db :=
  ⟨rfl, rfl, rfl, fun _ => Or.inl rfl⟩

theorem Sheds.trans {db db' db'' : OutboxDb} (sheds : Sheds sink dueNow db db')
    (sheds' : Sheds sink dueNow db' db'')
    : Sheds sink dueNow db db'' := by
  refine ⟨sheds'.events.trans sheds.events, sheds'.sinks.trans sheds.sinks,
    sheds'.since.trans sheds.since, fun key => ?_⟩
  rcases sheds'.delivery key with same | ⟨row, reason, found, named, pending, due, after⟩
  · rw [same]
    exact sheds.delivery key
  · rcases sheds.delivery key with same | ⟨old, reason', _, _, _, _, shed⟩
    · exact Or.inr ⟨row, reason, same ▸ found, named, pending, due, after⟩
    · -- What is shed is pending no more.
      rw [shed] at found
      cases found
      cases pending

theorem sheds_update {db : OutboxDb} {cond : DeliveryRow → Prop} [DecidablePred cond] (reason : String)
    (among : ∀ row ∈ db.deliveries, cond row →
      row.sink = sink ∧ row.status = .pending ∧ row.nextAttemptAt ≤ dueNow)
    : Sheds sink dueNow db
        { db with
          deliveries := db.deliveries.update cond fun row =>
            { row with status := .shed, lastError := some reason } } := by
  refine ⟨rfl, rfl, rfl, fun key => ?_⟩
  dsimp only
  rw [Table.get?_update]
  cases found : db.deliveries.get? key with
  | none => exact Or.inl rfl
  | some row =>
      rw [Option.map_some]
      by_cases hit : cond row
      · obtain ⟨named, pending, due⟩ := among row (Table.mem_of_get? found) hit
        rw [if_pos hit]
        exact Or.inr ⟨row, reason, rfl, named, pending, due, rfl⟩
      · rw [if_neg hit]
        exact Or.inl rfl

theorem ShedStep.sheds {db db' : OutboxDb} (step : ShedStep sink dueNow maxBytes largestFirst reason db db')
    : Sheds sink dueNow db db' := by
  obtain @⟨item, due, _, _⟩ := step
  obtain ⟨spooled, le⟩ := OutboxDb.mem_dueSpool.mp due
  obtain ⟨there, named, _, _⟩ := OutboxDb.mem_spool.mp spooled
  refine sheds_update reason fun row member hit => ⟨hit.1, hit.2.2, ?_⟩
  rw [Table.eq_of_key_eq member there (Prod.ext hit.2.1 (hit.1.trans named.symm))]
  exact le

theorem sheds_of_steps {db db' : OutboxDb}
    (steps : Relation.ReflTransGen (ShedStep sink dueNow maxBytes largestFirst reason) db db')
    : Sheds sink dueNow db db' := by
  induction steps with
  | refl => exact .refl db
  | tail _ step ih => exact ih.trans step.sheds

theorem Sheds.dueSpool_subset {db db' : OutboxDb} (sheds : Sheds sink dueNow db db') {item : Spooled}
    (due : item ∈ db'.dueSpool sink dueNow)
    : item ∈ db.dueSpool sink dueNow := by
  obtain ⟨spooled, le⟩ := OutboxDb.mem_dueSpool.mp due
  obtain ⟨there, named, pending, event⟩ := OutboxDb.mem_spool.mp spooled
  refine OutboxDb.mem_dueSpool.mpr ⟨OutboxDb.mem_spool.mpr ⟨?_, named, pending, ?_⟩, le⟩
  · have found := Table.get?_of_mem there
    rcases sheds.delivery (Keyed.key item.1) with same | ⟨_, _, _, _, _, _, shed⟩
    · exact Table.mem_of_get? (same ▸ found)
    · rw [found] at shed
      rw [Option.some_inj.mp shed] at pending
      cases pending
  · rw [← sheds.events]
    exact event

theorem not_due_shedOne {db : OutboxDb} {item : Spooled}
    : item ∉ (db.shedOne sink item.1.outboxId reason).dueSpool sink dueNow := by
  rw [OutboxDb.dueSpool_shedOne]
  simp

theorem before_of_steps {db db' : OutboxDb}
    (steps : Relation.ReflTransGen (ShedStep sink dueNow maxBytes largestFirst reason) db db')
    : ∀ item ∈ db.dueSpool sink dueNow, item ∉ db'.dueSpool sink dueNow →
        ∀ kept ∈ db'.dueSpool sink dueNow, shedBefore largestFirst item kept := by
  induction steps using Relation.ReflTransGen.head_induction_on with
  | refl => exact fun item due absent => absurd due absent
  | head step rest ih =>
      intro item due absent kept hkept
      have onward := (sheds_of_steps rest).dueSpool_subset hkept
      have still := step.sheds.dueSpool_subset onward
      obtain @⟨first, hfirst, least, _⟩ := step
      by_cases same : item.1.outboxId = first.1.outboxId
      · -- The delivery of an event is one, so that it is the one that this step sheds.
        have rows := List.inj_on_of_nodup_map (OutboxDb.nodup_dueSpool _ sink dueNow) due hfirst same
        rw [rows]
        exact least kept still
      · refine ih item ?_ absent kept hkept
        rw [OutboxDb.dueSpool_shedOne]
        exact List.mem_filter.mpr ⟨due, by simpa using same⟩

/-- No more is shed than needs to be: without the last delivery that was shed, the budget is not kept. -/
theorem needed_of_steps {db db' : OutboxDb}
    (steps : Relation.ReflTransGen (ShedStep sink dueNow maxBytes largestFirst reason) db db')
    : db' = db
      ∨ ∃ item ∈ db.dueSpool sink dueNow, item ∉ db'.dueSpool sink dueNow
        ∧ maxBytes < db'.pendingBytes sink + payloadBytes item.2 := by
  rcases Relation.ReflTransGen.cases_tail steps with same | ⟨middle, before, step⟩
  · exact Or.inl same
  · obtain @⟨item, due, _, exceeds⟩ := step
    refine Or.inr ⟨item, (sheds_of_steps before).dueSpool_subset due, not_due_shedOne, ?_⟩
    rw [OutboxDb.pendingBytes_shedOne (OutboxDb.mem_dueSpool.mp due).1]
    omega

end Steps

-- The age budget

section Older

variable {sink : String} {dueNow cutoff : Time} {reason : String}

theorem mem_older_iff {db : OutboxDb} {item : Spooled} (spooled : item ∈ db.spool sink)
    : item.1.outboxId ∈ (db.events.select fun event => event.createdAt < cutoff).map OutboxRow.id
      ↔ item.2.createdAt < cutoff := by
  obtain ⟨_, _, _, found⟩ := OutboxDb.mem_spool.mp spooled
  obtain ⟨there, named⟩ := Table.get?_eq_some_iff.mp found
  rw [List.mem_map]
  constructor
  · rintro ⟨event, selected, same⟩
    obtain ⟨member, old⟩ := Table.mem_select.mp selected
    rwa [← Table.eq_of_key_eq member there (same.trans named.symm)]
  · exact fun old => ⟨item.2, Table.mem_select.mpr ⟨there, old⟩, named⟩

theorem sheds_shedOlder (db : OutboxDb)
    : Sheds sink dueNow db (db.shedOlder sink dueNow cutoff reason).1 := by
  refine @sheds_update sink dueNow db _ _ reason ?_
  rintro row _ ⟨named, pending, _, due⟩
  exact ⟨named, pending, due⟩

theorem dueSpool_shedOlder (db : OutboxDb)
    : (db.shedOlder sink dueNow cutoff reason).1.dueSpool sink dueNow
      = (db.dueSpool sink dueNow).filter fun item => ¬ item.2.createdAt < cutoff := by
  unfold OutboxDb.shedOlder OutboxDb.dueSpool
  dsimp only
  rw [OutboxDb.spool_update, List.filter_filter, List.filter_filter]
  refine List.filter_congr fun item spooled => ?_
  obtain ⟨_, named, pending, _⟩ := OutboxDb.mem_spool.mp spooled
  have older := @mem_older_iff sink cutoff db item spooled
  by_cases due : item.1.nextAttemptAt ≤ dueNow
  · simp [due, named, pending, older]
  · simp [due]

theorem count_shedOlder (db : OutboxDb)
    : (db.shedOlder sink dueNow cutoff reason).2
        + ((db.shedOlder sink dueNow cutoff reason).1.dueSpool sink dueNow).length
      = (db.dueSpool sink dueNow).length := by
  have parts := (db.dueSpool sink dueNow).length_eq_length_filter_add fun item => item.2.createdAt < cutoff
  rw [dueSpool_shedOlder, parts]
  simp only [decide_not]
  congr 1
  -- The rows that are shed are those of the items that are too old, key by key.
  unfold OutboxDb.shedOlder
  dsimp only
  rw [Table.count_eq_length_keys, ← List.length_map (fun item : Spooled => Keyed.key item.1)]
  refine List.Perm.length_eq ((List.perm_ext_iff_of_nodup ?_ ?_).mpr fun key => ?_)
  · exact Table.nodup_keys _
  · refine ((db.nodup_dueSpool sink dueNow).of_map.filter _).map_on ?_
    intro first hfirst second hsecond same
    have ids := (Prod.mk.inj same).1
    exact List.inj_on_of_nodup_map (db.nodup_dueSpool sink dueNow)
      (List.mem_of_mem_filter hfirst) (List.mem_of_mem_filter hsecond) ids
  · rw [List.mem_map, List.mem_map]
    constructor
    · rintro ⟨row, selected, rfl⟩
      obtain ⟨there, named, pending, old, due⟩ := Table.mem_select.mp selected
      obtain ⟨event, hevent, same⟩ := List.mem_map.mp old
      have found : db.events.get? row.outboxId = some event :=
        Table.get?_eq_some_iff.mpr ⟨(Table.mem_select.mp hevent).1, same⟩
      have spooled : (row, event) ∈ db.spool sink :=
        OutboxDb.mem_spool.mpr ⟨there, named, pending, found⟩
      refine ⟨(row, event), List.mem_filter.mpr ⟨OutboxDb.mem_dueSpool.mpr ⟨spooled, due⟩, ?_⟩, rfl⟩
      simpa using (Table.mem_select.mp hevent).2
    · rintro ⟨item, among, rfl⟩
      obtain ⟨due, old⟩ := List.mem_filter.mp among
      obtain ⟨spooled, le⟩ := OutboxDb.mem_dueSpool.mp due
      obtain ⟨there, named, pending, _⟩ := OutboxDb.mem_spool.mp spooled
      exact ⟨item.1, Table.mem_select.mpr ⟨there, named, pending,
        (mem_older_iff spooled).mpr (of_decide_eq_true old), le⟩, rfl⟩

end Older

/-- What a call for a sink does to an outbox: a delivery is shed only if it was due; of the due ones that are
older than the age budget none is left, and of the others one is shed only ahead of all that are left in the
policy's order, and only as needed; and the byte budget is kept, unless nothing due is left.
-/
structure WithinBudgets (db : OutboxDb) (sink : String) (dueNow now : Time)
    (maxBytes maxAgeSecs : Int) (policy : String) (result : OutboxDb × Nat) : Prop where
  sheds : Sheds sink dueNow db result.1
  age : 0 < maxAgeSecs →
    ∀ kept ∈ result.1.dueSpool sink dueNow, ageCutoff now maxAgeSecs ≤ kept.2.createdAt
  first : ∀ item ∈ db.dueSpool sink dueNow, item ∉ result.1.dueSpool sink dueNow →
    (0 < maxAgeSecs ∧ item.2.createdAt < ageCutoff now maxAgeSecs)
      ∨ (0 < maxBytes ∧
        ∀ kept ∈ result.1.dueSpool sink dueNow, shedBefore (isLargestFirst policy) item kept)
  needed : (∀ item ∈ db.dueSpool sink dueNow, item ∉ result.1.dueSpool sink dueNow →
      0 < maxAgeSecs ∧ item.2.createdAt < ageCutoff now maxAgeSecs)
    ∨ ∃ item ∈ db.dueSpool sink dueNow, item ∉ result.1.dueSpool sink dueNow
      ∧ maxBytes < result.1.pendingBytes sink + payloadBytes item.2
  bytes : 0 < maxBytes →
    result.1.pendingBytes sink ≤ maxBytes ∨ result.1.dueSpool sink dueNow = []
  count : result.2 + (result.1.dueSpool sink dueNow).length = (db.dueSpool sink dueNow).length

theorem age_withinBudgets (db : OutboxDb) (sink : String) (dueNow now : Time) (maxAgeSecs : Int)
    (reason : String)
    : let aged := if maxAgeSecs > 0 then
          db.shedOlder sink dueNow (ageCutoff now maxAgeSecs) reason else (db, 0)
      Sheds sink dueNow db aged.1
      ∧ (0 < maxAgeSecs → ∀ kept ∈ aged.1.dueSpool sink dueNow, ageCutoff now maxAgeSecs ≤ kept.2.createdAt)
      ∧ (∀ item ∈ db.dueSpool sink dueNow, item ∉ aged.1.dueSpool sink dueNow →
        0 < maxAgeSecs ∧ item.2.createdAt < ageCutoff now maxAgeSecs)
      ∧ aged.2 + (aged.1.dueSpool sink dueNow).length = (db.dueSpool sink dueNow).length := by
  by_cases ages : maxAgeSecs > 0
  · simp only [if_pos ages]
    refine ⟨sheds_shedOlder db, fun _ kept => ?_, fun item due absent => ⟨ages, ?_⟩,
      count_shedOlder db⟩
    · rw [dueSpool_shedOlder, List.mem_filter]
      rintro ⟨_, young⟩
      simpa using young
    · rw [dueSpool_shedOlder, List.mem_filter, not_and] at absent
      simpa using absent due
  · simp only [if_neg ages]
    exact ⟨.refl db, fun positive => absurd positive ages,
      fun item due absent => absurd due absent, Nat.zero_add _⟩

/-- A sink's spool is brought back inside its budgets: what is leased stays, what is shed is the first in
order, and as much is shed as needs to be, or as is due.
-/
theorem shedOutbox_withinBudgets (db : OutboxDb) (sink : String) (dueNow now : Time)
    (maxBytes maxAgeSecs : Int) (policy : String)
    : WithinBudgets db sink dueNow now maxBytes maxAgeSecs policy
        (db.shedOutbox sink dueNow now maxBytes maxAgeSecs policy) := by
  unfold OutboxDb.shedOutbox
  have aged := age_withinBudgets db sink dueNow now maxAgeSecs
    ("shed: older than the " ++ toString maxAgeSecs ++ "s outbox age budget")
  revert aged
  generalize (if maxAgeSecs > 0 then db.shedOlder sink dueNow (ageCutoff now maxAgeSecs)
    ("shed: older than the " ++ toString maxAgeSecs ++ "s outbox age budget") else (db, 0)) = young
  rintro ⟨sheds, age, old, count⟩
  dsimp only
  by_cases bytes : maxBytes > 0
  · rw [if_pos bytes]
    generalize "shed: over the " ++ toString maxBytes ++ "-byte outbox budget ("
      ++ (if isLargestFirst policy then "largest" else "oldest") ++ " first)" = reason
    have exact_ : Shedding.Exact sink dueNow (db.dueSpool sink dueNow).length
        ⟨young.1, young.2, young.1.pendingBytes sink, false⟩ := ⟨rfl, count⟩
    obtain ⟨steps, exact', kept⟩ := @shedPages_spec sink dueNow maxBytes (isLargestFirst policy)
      reason _ _ exact_
    have further := sheds_of_steps steps
    refine ⟨sheds.trans further, ?_, ?_, ?_, fun _ => kept, exact'.shed⟩
    · exact fun ages item due => age ages item (further.dueSpool_subset due)
    · intro item due absent
      by_cases still : item ∈ young.1.dueSpool sink dueNow
      · exact Or.inr ⟨bytes, before_of_steps steps item still absent⟩
      · exact Or.inl (old item due still)
    · rcases needed_of_steps steps with same | ⟨item, due, absent, exceeds⟩
      · refine Or.inl fun item due absent => old item due ?_
        rw [same] at absent
        exact absent
      · exact Or.inr ⟨item, sheds.dueSpool_subset due, absent, exceeds⟩
  · rw [if_neg bytes]
    exact ⟨sheds, age, fun item due absent => Or.inl (old item due absent), Or.inl old,
      fun positive => absurd positive bytes, count⟩

/-- A spool of two deliveries, the older one of two bytes and the newer one of five. -/
def twoEvents : OutboxDb where
  events := ⟨[{ id := 1, runId := 1, eventType := "run.completed", payload := "aa", createdAt := 1 },
    { id := 2, runId := 2, eventType := "run.completed", payload := "bbbbb", createdAt := 2 }],
    by decide⟩
  sinks := .empty
  deliveries := ⟨[{ outboxId := 1, sink := "fleet", nextAttemptAt := 1 },
    { outboxId := 2, sink := "fleet", nextAttemptAt := 2 }], by decide⟩
  perSinkSince := 0

/-- A byte budget of zero is none, so that no delivery is shed for it; and the largest delivery is shed
before an older one where the policy says so.
-/
theorem not_always_oldest
    : (0 < (twoEvents.shedOutbox "fleet" 10 10 0 0 "oldest").1.pendingBytes "fleet"
        ∧ (twoEvents.shedOutbox "fleet" 10 10 0 0 "oldest").1.dueSpool "fleet" 10 ≠ [])
      ∧ ∃ item ∈ twoEvents.dueSpool "fleet" 10,
          item ∉ (twoEvents.shedOutbox "fleet" 10 10 3 0 "largest").1.dueSpool "fleet" 10
          ∧ ∃ kept ∈ (twoEvents.shedOutbox "fleet" 10 10 3 0 "largest").1.dueSpool "fleet" 10,
            kept.2.createdAt < item.2.createdAt := by
  decide +kernel

end Dagron.Store
