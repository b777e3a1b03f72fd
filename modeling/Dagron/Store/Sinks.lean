import Dagron.Store.Outbox

/-! Sinks of the outbox over whole runs: an enrolment never passes by an event that commits in
time, and what one sink does is no other's concern.
-/

namespace Dagron.Store

open Dagron.Library

-- What a transaction keeps

/-- What every transaction keeps: time passes, events stay and new ones are of now, deliveries
stay, and a sink's window only moves on.
-/
structure OutboxWorld.Grows (before after : OutboxWorld) : Prop where
  clock
    : before.clock ≤ after.clock
  events
    : ∀ row ∈ before.db.events, row ∈ after.db.events
        ∧ after.committedAt row.id = before.committedAt row.id
  new
    : ∀ row ∈ after.db.events, row ∈ before.db.events
        ∨ after.committedAt row.id = before.clock ∧ row.createdAt ≤ before.clock
  enrolled
    : ∀ sink id, before.db.enrolled sink id → after.db.enrolled sink id
  sinks
    : ∀ name row, before.db.sinks.get? name = some row
      → ∃ row', after.db.sinks.get? name = some row'
          ∧ row'.since = row.since ∧ row.cursor ≤ row'.cursor

/-- A transaction that writes other tables than the events and the sinks keeps what it keeps of
the deliveries.
-/
theorem OutboxWorld.Grows.of_deliveries {before after : OutboxWorld}
    (clock : before.clock ≤ after.clock) (committedAt : after.committedAt = before.committedAt)
    (events : after.db.events = before.db.events) (sinks : after.db.sinks = before.db.sinks)
    (enrolled : ∀ sink id, before.db.enrolled sink id → after.db.enrolled sink id)
    : before.Grows after where
  clock := clock
  events row among := by simp [events, committedAt, among]
  new row among := Or.inl (events ▸ among)
  enrolled := enrolled
  sinks name row found := ⟨row, by rw [sinks]; exact found, rfl, Int.le_refl _⟩

theorem OutboxWorld.Grows.callTo {before after : OutboxWorld} (grows : before.Grows after)
    (process : Nat) (call : SinkCall)
    : before.Grows (after.callTo process call) :=
  ⟨grows.clock, grows.events, grows.new, grows.enrolled, grows.sinks⟩

theorem OutboxDb.enrolled_deliver (db : OutboxDb) (sink : String) (rows : List OutboxRow)
    : (∀ other id, db.enrolled other id → (db.deliver sink rows).enrolled other id)
        ∧ ∀ row ∈ rows, (db.deliver sink rows).enrolled sink row.id := by
  obtain ⟨kept, -, covered⟩ := Table.get?_insertOrIgnore_foldl db.deliveries (rows.map (deliveryOf sink))
  constructor
  · intro other id there
    obtain ⟨delivery, found⟩ := Option.isSome_iff_exists.mp there
    exact Option.isSome_iff_exists.mpr ⟨delivery, kept _ _ found⟩
  · intro row among
    exact Option.isSome_iff_exists.mpr (covered _ (List.mem_map_of_mem among))

theorem OutboxDb.enrolled_update (db : OutboxDb) {cond : DeliveryRow → Prop}
    [DecidablePred cond] {set : DeliveryRow → DeliveryRow}
    (keeps : ∀ row, Keyed.key (set row) = Keyed.key row) (sink : String) (id : Nat)
    : OutboxDb.enrolled { db with deliveries := db.deliveries.update cond set keeps } sink id
      = db.enrolled sink id := by
  unfold enrolled
  rw [Table.get?_update keeps, Option.isSome_map]

theorem OutboxDb.sinks_moveCursor (db : OutboxDb) (sink : String) (next : Time) (name : String)
    : (db.moveCursor sink next).sinks.get? name
      = (db.sinks.get? name).map (fun row =>
          if row.sink = sink ∧ row.cursor < next then { row with cursor := next } else row) := by
  have keeps (row : SinkRow) : Keyed.key { row with cursor := next } = Keyed.key row := rfl
  exact Table.get?_update keeps name

theorem OutboxWorld.grows_deliver (world : OutboxWorld) (sink : String) (rows : List OutboxRow)
    : world.Grows (world.withDb (world.db.deliver sink rows)) :=
  .of_deliveries (Int.le_refl _) rfl rfl rfl (world.db.enrolled_deliver sink rows).1

theorem OutboxWorld.grows_update (world : OutboxWorld) {cond : DeliveryRow → Prop}
    [DecidablePred cond] {set : DeliveryRow → DeliveryRow}
    (keeps : ∀ row, Keyed.key (set row) = Keyed.key row)
    : world.Grows (world.withDb
        { world.db with deliveries := world.db.deliveries.update cond set keeps }) := by
  refine .of_deliveries (Int.le_refl _) rfl rfl rfl ?_
  intro sink id there
  exact (world.db.enrolled_update keeps sink id).trans there

theorem OutboxWorld.grows_callTo (world : OutboxWorld) (process : Nat) (call : SinkCall)
    : world.Grows (world.callTo process call) :=
  .of_deliveries (Int.le_refl _) rfl rfl rfl (fun _ _ there => there)

theorem OutboxWorld.grows_nameSink (world : OutboxWorld) (sink : OutboxSink) (now : Time)
    : world.Grows (world.withDb (world.db.nameSink sink now)) where
  clock := Int.le_refl _
  events _ among := ⟨among, rfl⟩
  new _ among := Or.inl among
  enrolled _ _ there := there
  sinks name row found := by
    refine ⟨row, ?_, rfl, Int.le_refl _⟩
    exact (Table.get?_insertOrIgnore_foldl world.db.sinks [⟨sink.name, now, now, now⟩]).1 name row found

theorem OutboxWorld.grows_moveCursor (world : OutboxWorld) (sink : String) (next : Time)
    : world.Grows (world.withDb (world.db.moveCursor sink next)) where
  clock := Int.le_refl _
  events _ among := ⟨among, rfl⟩
  new _ among := Or.inl among
  enrolled _ _ there := there
  sinks name row found := by
    simp only [OutboxWorld.withDb, OutboxDb.sinks_moveCursor, found, Option.map_some]
    split
    next moved => exact ⟨_, rfl, rfl, Int.le_of_lt moved.2⟩
    next => exact ⟨row, rfl, rfl, Int.le_refl _⟩

theorem OutboxWorld.grows_commitEvents {world : OutboxWorld} {rows : List OutboxRow}
    {events : Table OutboxRow}
    (come : ∀ row ∈ rows, row.status = .pending ∧ row.createdAt ≤ world.clock)
    (inserted : world.db.events.insertAll rows = some events)
    : world.Grows { world with
        db := { world.db with events }
        committedAt := fun id =>
          if id ∈ rows.map (fun row => row.id) then world.clock else world.committedAt id } where
  clock := Int.le_refl _
  events row among := by
    constructor
    · rw [Table.mem_iff, Table.rows_insertAll inserted]
      exact List.mem_append_left _ among
    · refine if_neg ?_
      intro taken
      obtain ⟨other, new, same⟩ := List.mem_map.mp taken
      have free := (Table.fresh_insertAll inserted).2 other new
      exact Table.get?_eq_none_iff.mp free row among same.symm
  new row among := by
    rw [Table.mem_iff, Table.rows_insertAll inserted] at among
    rcases List.mem_append.mp among with old | new
    · exact Or.inl old
    · exact Or.inr ⟨if_pos (List.mem_map_of_mem new), (come row new).2⟩
  enrolled _ _ there := there
  sinks _ row found := ⟨row, found, rfl, Int.le_refl _⟩

theorem OutboxWorld.grows_next {world after : OutboxWorld} {process : Nat}
    (done : world.next process = some after)
    : world.Grows after := by
  unfold OutboxWorld.next at done
  cases call : world.calls process with
  | idle => simp [call] at done
  | adopting sink now enrolment | enrolling sink now cursor found =>
      simp only [call, Option.some.injEq] at done
      subst done
      exact (world.grows_deliver _ _).callTo ..
  | naming sink now enrolment =>
      simp only [call, Option.some.injEq] at done
      subst done
      exact (world.grows_nameSink sink now).callTo ..
  | reading sink now =>
      simp only [call] at done
      split at done <;> obtain rfl := Option.some.inj done <;> exact world.grows_callTo ..
  | finding sink now since cursor =>
      simp only [call, Option.some.injEq] at done
      subst done
      exact world.grows_callTo ..
  | moving sink now cursor found =>
      simp only [call, Option.some.injEq] at done
      subst done
      split
      · exact (world.grows_moveCursor ..).callTo ..
      · exact world.grows_callTo ..

theorem OutboxOp.grows {sinks : Sinks} {op : OutboxOp} {world after : OutboxWorld}
    (done : op.step sinks world = some after)
    : world.Grows after := by
  cases op with
  | tick now =>
      obtain rfl := Option.some.inj done
      exact .of_deliveries (Int.le_max_left ..) rfl rfl rfl (fun _ _ there => there)
  | commitEvents rows =>
      simp only [OutboxOp.step] at done
      split at done
      next come =>
        obtain ⟨events, inserted, rfl⟩ := Option.map_eq_some_iff.mp done
        exact OutboxWorld.grows_commitEvents come inserted
      next => cases done
  | registerOutboxSink process sink | outboxEnroll process sink =>
      simp only [OutboxOp.step] at done
      split at done
      · obtain rfl := Option.some.inj done
        exact world.grows_callTo ..
      · cases done
  | next process => exact OutboxWorld.grows_next done
  | claimDeliveries sink now limit leaseSecs
  | markOutboxDelivered sink id now
  | markOutboxFailed sink id error retryAt
  | markOutboxDead sink id error =>
      obtain rfl := Option.some.inj done
      exact world.grows_update _

-- What an enrolment finds

theorem mem_take_or_full {Item : Type} {order : Item → Item → Prop} {items : List Item}
    (sorted : items.Pairwise order) {item : Item} (among : item ∈ items) (page : Nat)
    : item ∈ items.take page
        ∨ (items.take page).length = page ∧ ∀ other ∈ items.take page, order other item := by
  rw [← List.take_append_drop page items] at sorted among
  rcases List.mem_append.mp among with first | later
  · exact Or.inl first
  · have longer : 0 < (items.drop page).length := List.length_pos_of_mem later
    rw [List.length_drop] at longer
    refine Or.inr ⟨?_, ?_⟩
    · rw [List.length_take]
      omega
    · exact fun other first => (List.pairwise_append.mp sorted).2.2 other first item later

instance : IsTrans OutboxRow OutboxDb.before where
  trans _ _ _ := by
    unfold OutboxDb.before Time
    omega

instance : Std.Total OutboxDb.before where
  total _ _ := by
    unfold OutboxDb.before Time
    omega

/-- What an enrolment finds is recorded, awaited, and of no earlier time than it looks from; what
it does not find is after a full page.
-/
theorem OutboxDb.findEvents_spec (db : OutboxDb) (sink : OutboxSink) (start : Time)
    : (∀ row ∈ db.findEvents sink start, row ∈ db.events ∧ db.awaits sink row)
        ∧ ∀ row ∈ db.events, db.awaits sink row → start ≤ row.createdAt
          → row ∈ db.findEvents sink start
            ∨ (db.findEvents sink start).length = outboxEnrollRows
              ∧ ∀ other ∈ db.findEvents sink start, before other row := by
  unfold findEvents
  constructor
  · intro row found
    have among := List.mem_of_mem_take found
    rw [List.mem_insertionSort, Table.mem_select] at among
    exact ⟨among.1, among.2.2⟩
  · intro row among waits late
    apply mem_take_or_full (List.pairwise_insertionSort before _)
    rw [List.mem_insertionSort, Table.mem_select]
    exact ⟨among, late, waits⟩

theorem exists_of_latestOf {found : List OutboxRow} {latest : Time} (some : latestOf found = some latest)
    : ∃ row ∈ found, row.createdAt = latest := by
  induction found generalizing latest with
  | nil => cases some
  | cons head rest ih =>
      unfold latestOf at some ih
      rw [List.foldr_cons] at some
      cases later : rest.foldr (fun row latest => later? (Option.some row.createdAt) latest) none with
      | none =>
          rw [later] at some
          exact ⟨head, List.mem_cons_self, Option.some.inj some⟩
      | some last =>
          rw [later] at some
          obtain ⟨row, among, same⟩ := ih later
          have largest : max head.createdAt last = latest := Option.some.inj some
          rcases le_total head.createdAt last with less | more
          · rw [max_eq_right less] at largest
            exact ⟨row, List.mem_cons_of_mem _ among, same.trans largest⟩
          · rw [max_eq_left more] at largest
            exact ⟨head, List.mem_cons_self, largest⟩

/-- A next cursor is that of the latest event found, or where the page was not full that or an
instant the late-commit window ago.
-/
theorem outboxNextCursor_cases {found : List OutboxRow} {now next : Time}
    (moved : outboxNextCursor (latestOf found) found.length now = some next)
    : (∃ row ∈ found, row.createdAt = next)
        ∨ found.length < outboxEnrollRows ∧ next = now - seconds outboxLateCommitSecs := by
  unfold outboxNextCursor at moved
  split at moved
  next short =>
    cases latest : latestOf found with
    | none =>
        rw [latest] at moved
        exact Or.inr ⟨short, (Option.some.inj moved).symm⟩
    | some last =>
        rw [latest] at moved
        have largest : max last (now - seconds outboxLateCommitSecs) = next :=
          Option.some.inj moved
        rcases le_total last (now - seconds outboxLateCommitSecs) with less | more
        · rw [max_eq_right less] at largest
          exact Or.inr ⟨short, largest.symm⟩
        · rw [max_eq_left more] at largest
          exact Or.inl (largest ▸ exists_of_latestOf latest)
  next =>
    cases latest : latestOf found with
    | none => simp [latest, later?] at moved
    | some last =>
        rw [latest] at moved
        exact Or.inl (exists_of_latestOf (latest.trans moved))

-- No event is passed by

/-- Whether an event is for a sink: of one of its types, of no earlier time than it was registered,
and committed in time.
-/
structure OutboxWorld.For (world : OutboxWorld) (sink : OutboxSink) (since : Time)
    (row : OutboxRow) : Prop where
  among
    : row ∈ world.db.events
  pending
    : row.status = .pending
  wanted
    : sink.wants row.eventType
  since
    : since ≤ row.createdAt
  timely
    : world.committedAt row.id ≤ row.createdAt + seconds outboxLateCommitSecs

/-- Whether a bound has come, and every event for a sink that is out of reach behind it is
enrolled or among those found.
-/
structure OutboxWorld.Covers (world : OutboxWorld) (sink : OutboxSink) (since bound : Time)
    (found : List OutboxRow) : Prop where
  come
    : bound ≤ world.clock
  behind
    : ∀ row, world.For sink since row
      → row.createdAt + seconds outboxLateCommitSecs < bound
      → world.db.enrolled sink.name row.id ∨ row ∈ found

theorem OutboxWorld.Covers.grow {before after : OutboxWorld} {sink : OutboxSink}
    {since bound : Time} {found : List OutboxRow} (covers : before.Covers sink since bound found)
    (grows : before.Grows after)
    : after.Covers sink since bound found where
  come := covers.come.trans grows.clock
  behind row asked behind := by
    have timely := asked.timely
    rcases grows.new row asked.among with old | ⟨now, -⟩
    · rw [(grows.events row old).2] at timely
      rcases covers.behind row ⟨old, asked.pending, asked.wanted, asked.since, timely⟩ behind
        with there | among
      · exact Or.inl (grows.enrolled _ _ there)
      · exact Or.inr among
    · have come := covers.come
      unfold Time at *
      omega

theorem OutboxWorld.Covers.find {world : OutboxWorld} {sink : OutboxSink} {since cursor now : Time}
    (covers : world.Covers sink since cursor []) (started : now ≤ world.clock)
    (past : ∀ row ∈ world.db.events, row.createdAt ≤ world.clock) {found : List OutboxRow}
    (finds : found = world.db.findEvents sink (outboxEnrolFrom since cursor)) {next : Time}
    (moved : outboxNextCursor (latestOf found) found.length now = some next)
    : world.Covers sink since next found := by
  obtain ⟨recorded, missed⟩ := world.db.findEvents_spec sink (outboxEnrolFrom since cursor)
  rw [← finds] at recorded missed
  have window : seconds outboxLateCommitSecs = 300000000000 := rfl
  constructor
  · rcases outboxNextCursor_cases moved with ⟨row, among, rfl⟩ | ⟨-, rfl⟩
    · exact past row (recorded row among).1
    · unfold Time at *
      omega
  · intro row asked behind
    by_cases there : world.db.enrolled sink.name row.id
    · exact Or.inl there
    · right
      have reach : outboxEnrolFrom since cursor ≤ row.createdAt := by
        refine max_le ?_ asked.since
        by_contra out
        have behind : row.createdAt + seconds outboxLateCommitSecs < cursor := by
          unfold Time at *
          omega
        rcases covers.behind row asked behind with enrolled | none
        · exact there enrolled
        · cases none
      rcases missed row asked.among ⟨asked.pending, asked.wanted, there⟩ reach with hit | ⟨full, earlier⟩
      · exact hit
      · rcases outboxNextCursor_cases moved with ⟨last, among, rfl⟩ | ⟨short, -⟩
        · have order := earlier last among
          unfold OutboxDb.before at order
          unfold Time at *
          omega
        · omega

/-- What holds of a call: it is for a sink of the store and began at a time that has come; what it
read of the sink's window is no later than that is; and the cursor it may write is covered
once what it found is handed out.
-/
def SinkCall.Fair (sinks : Sinks) (world : OutboxWorld) : SinkCall → Prop
  | .idle => True
  | .adopting sink now enrolment | .naming sink now enrolment =>
      sink = sinks.sink sink.name ∧ now ≤ world.clock ∧ ∀ start ∈ enrolment, start ≤ world.clock
  | .reading sink now => sink = sinks.sink sink.name ∧ now ≤ world.clock
  | .finding sink now since cursor =>
      sink = sinks.sink sink.name ∧ now ≤ world.clock
        ∧ ∃ row, world.db.sinks.get? sink.name = some row ∧ row.since = since ∧ cursor ≤ row.cursor
  | .enrolling sink now _ found =>
      sink = sinks.sink sink.name
        ∧ (∀ row ∈ found, row ∈ world.db.events)
        ∧ ∃ row, world.db.sinks.get? sink.name = some row
          ∧ ∀ next, outboxNextCursor (latestOf found) found.length now = some next
            → world.Covers sink row.since next found
  | .moving sink now _ found =>
      sink = sinks.sink sink.name
        ∧ ∃ row, world.db.sinks.get? sink.name = some row
          ∧ ∀ next, outboxNextCursor (latestOf found) found.length now = some next
            → world.Covers sink row.since next []

theorem SinkCall.Fair.grow {sinks : Sinks} {before after : OutboxWorld} {call : SinkCall}
    (fair : call.Fair sinks before) (grows : before.Grows after)
    : call.Fair sinks after := by
  have later {instant : Time} (come : instant ≤ before.clock) : instant ≤ after.clock :=
    come.trans grows.clock
  cases call with
  | idle => trivial
  | adopting sink now enrolment | naming sink now enrolment =>
      exact ⟨fair.1, later fair.2.1, fun start began => later (fair.2.2 start began)⟩
  | reading sink now => exact ⟨fair.1, later fair.2⟩
  | finding sink now since cursor =>
      obtain ⟨named, come, row, found, rfl, read⟩ := fair
      obtain ⟨row', found', same, on⟩ := grows.sinks _ row found
      exact ⟨named, later come, row', found', same, read.trans on⟩
  | enrolling sink now cursor found =>
      obtain ⟨named, recorded, row, there, covers⟩ := fair
      obtain ⟨row', there', same, -⟩ := grows.sinks _ row there
      refine ⟨named, fun row among => (grows.events row (recorded row among)).1, row', there', ?_⟩
      intro next moved
      rw [same]
      exact (covers next moved).grow grows
  | moving sink now cursor found =>
      obtain ⟨named, row, there, covers⟩ := fair
      obtain ⟨row', there', same, -⟩ := grows.sinks _ row there
      refine ⟨named, row', there', ?_⟩
      intro next moved
      rw [same]
      exact (covers next moved).grow grows

/-- What holds of the outbox: no event is of a time to come, every sink's cursor is covered, and
the calls are fair.
-/
structure OutboxWorld.Fair (sinks : Sinks) (world : OutboxWorld) : Prop where
  past
    : ∀ row ∈ world.db.events, row.createdAt ≤ world.clock
  windows
    : ∀ name row, world.db.sinks.get? name = some row
      → world.Covers (sinks.sink name) row.since row.cursor []
  calls
    : ∀ process, (world.calls process).Fair sinks world

/-- A transaction that keeps what a transaction keeps is fair where the windows it changed are
covered and the call it moved is fair.
-/
theorem OutboxWorld.Fair.grow {sinks : Sinks} {before after : OutboxWorld}
    (fair : before.Fair sinks) (grows : before.Grows after)
    (windows : ∀ name row, after.db.sinks.get? name = some row
      → before.db.sinks.get? name = some row
        ∨ after.Covers (sinks.sink name) row.since row.cursor [])
    (calls : ∀ process, after.calls process = before.calls process
      ∨ (after.calls process).Fair sinks after)
    : after.Fair sinks where
  past row among := by
    rcases grows.new row among with old | ⟨-, come⟩
    · exact (fair.past row old).trans grows.clock
    · exact come.trans grows.clock
  windows name row found := by
    rcases windows name row found with old | covers
    · exact (fair.windows name row old).grow grows
    · exact covers
  calls process := by
    rcases calls process with same | fair'
    · rw [same]
      exact (fair.calls process).grow grows
    · exact fair'

theorem OutboxWorld.Fair.callTo {sinks : Sinks} {world : OutboxWorld} (fair : world.Fair sinks)
    {db : OutboxDb} {process : Nat} {call : SinkCall} (grows : world.Grows (world.withDb db))
    (windows : ∀ name row, db.sinks.get? name = some row → world.db.sinks.get? name = some row
      ∨ (world.withDb db).Covers (sinks.sink name) row.since row.cursor [])
    (moved : call.Fair sinks (world.withDb db))
    : ((world.withDb db).callTo process call).Fair sinks := by
  have grows' := grows.callTo process call
  refine fair.grow grows' ?_ ?_
  · intro name row found
    rcases windows name row found with old | covers
    · exact Or.inl old
    · exact Or.inr (covers.grow (OutboxWorld.grows_callTo ..))
  · intro other
    by_cases same : other = process
    · subst same
      right
      simp only [OutboxWorld.callTo, Function.update_self]
      exact moved.grow (OutboxWorld.grows_callTo ..)
    · exact Or.inl (Function.update_of_ne same ..)

theorem OutboxWorld.Covers.mono {world : OutboxWorld} {sink : OutboxSink} {since bound bound' : Time}
    {found : List OutboxRow} (covers : world.Covers sink since bound found) (earlier : bound' ≤ bound)
    : world.Covers sink since bound' found :=
  ⟨earlier.trans covers.come, fun row asked behind =>
    covers.behind row asked (lt_of_lt_of_le behind earlier)⟩

theorem OutboxWorld.Fair.nameSink {sinks : Sinks} {world : OutboxWorld} {sink : OutboxSink}
    {now : Time} (come : now ≤ world.clock) (name : String) (row : SinkRow)
    (found : (world.db.nameSink sink now).sinks.get? name = some row)
    : world.db.sinks.get? name = some row
        ∨ (world.withDb (world.db.nameSink sink now)).Covers (sinks.sink name) row.since
            row.cursor [] := by
  rcases (Table.get?_insertOrIgnore_foldl world.db.sinks [⟨sink.name, now, now, now⟩]).2.1
    name row found with old | ⟨-, new⟩
  · exact Or.inl old
  · obtain rfl := List.mem_singleton.mp new
    refine Or.inr ⟨come, ?_⟩
    intro row asked behind
    have since : now ≤ row.createdAt := asked.since
    have early : row.createdAt + seconds outboxLateCommitSecs < now := behind
    have window : seconds outboxLateCommitSecs = 300000000000 := rfl
    unfold Time at *
    omega

theorem OutboxDb.enrolled_enrollFound {db : OutboxDb} {sink : OutboxSink} {found : List OutboxRow}
    (recorded : ∀ row ∈ found, row ∈ db.events) {row : OutboxRow} (among : row ∈ found)
    : (db.enrollFound sink found).enrolled sink.name row.id := by
  apply (db.enrolled_deliver _ _).2
  rw [Table.mem_select]
  exact ⟨recorded row among, List.mem_map_of_mem among⟩

theorem OutboxWorld.Fair.next {sinks : Sinks} {world after : OutboxWorld} (fair : world.Fair sinks)
    {process : Nat} (done : world.next process = some after)
    : after.Fair sinks := by
  have call := fair.calls process
  have kept (name : String) (row : SinkRow) (found : world.db.sinks.get? name = some row)
      : world.db.sinks.get? name = some row
        ∨ (world.withDb world.db).Covers (sinks.sink name) row.since row.cursor [] :=
    Or.inl found
  have idle : world.Grows (world.withDb world.db) :=
    .of_deliveries (Int.le_refl _) rfl rfl rfl (fun _ _ there => there)
  unfold OutboxWorld.next at done
  cases place : world.calls process with
  | idle => simp [place] at done
  | adopting sink now enrolment =>
      simp only [place, Option.some.injEq] at done call
      subst done
      exact fair.callTo (world.grows_deliver _ _) (fun _ _ found => Or.inl found) call
  | naming sink now enrolment =>
      simp only [place, Option.some.injEq] at done call
      subst done
      obtain ⟨named, come, began⟩ := call
      refine fair.callTo (world.grows_nameSink sink now) (OutboxWorld.Fair.nameSink come) ?_
      cases enrolment with
      | none => trivial
      | some start => exact ⟨named, began start rfl⟩
  | reading sink now =>
      simp only [place] at done call
      obtain ⟨named, come⟩ := call
      split at done
      next row found =>
        obtain rfl := Option.some.inj done
        exact fair.callTo idle kept ⟨named, come, row, found, rfl, Int.le_refl _⟩
      next =>
        obtain rfl := Option.some.inj done
        refine fair.callTo idle kept ?_
        unfold SinkCall.register
        split <;> exact ⟨named, Int.le_refl _, fun start same => Option.mem_some_iff.mp same ▸ come⟩
  | finding sink now since cursor =>
      simp only [place, Option.some.injEq] at done call
      subst done
      obtain ⟨named, come, row, found, rfl, read⟩ := call
      refine fair.callTo idle kept ⟨named, ?_, row, found, ?_⟩
      · exact fun row among => ((world.db.findEvents_spec sink _).1 row among).1
      · intro next moved
        have covers := fair.windows sink.name row found
        rw [← named] at covers
        exact (covers.mono read).find come fair.past rfl moved
  | enrolling sink now cursor found =>
      simp only [place, Option.some.injEq] at done call
      subst done
      obtain ⟨named, recorded, row, there, covers⟩ := call
      refine fair.callTo (world.grows_deliver _ _) (fun _ _ found => Or.inl found)
        ⟨named, row, there, ?_⟩
      intro next moved
      have covers' := (covers next moved).grow (world.grows_deliver sink.name
        (world.db.events.select (fun row => row.id ∈ found.map (fun row : OutboxRow => row.id))))
      refine ⟨covers'.come, ?_⟩
      intro row asked behind
      rcases covers'.behind row asked behind with handed | among
      · exact Or.inl handed
      · exact Or.inl (OutboxDb.enrolled_enrollFound recorded among)
  | moving sink now cursor found =>
      simp only [place, Option.some.injEq] at done call
      subst done
      obtain ⟨named, row, there, covers⟩ := call
      split
      next next moved =>
        refine fair.callTo (world.grows_moveCursor sink.name next) ?_ trivial
        intro name other found
        rw [OutboxDb.sinks_moveCursor] at found
        obtain ⟨old, before, same⟩ := Option.map_eq_some_iff.mp found
        split at same
        next on =>
          obtain rfl : old.sink = name := Table.key_of_get? before
          rw [on.1] at before ⊢
          obtain rfl := Option.some.inj (before.symm.trans there)
          subst same
          right
          rw [← named]
          have next := covers next (Option.filter_eq_some_iff.mp moved).1
          exact next.grow (world.grows_moveCursor ..)
        next => exact Or.inl (same ▸ before)
      next => exact fair.callTo idle kept trivial

theorem OutboxWorld.Fair.step {sinks : Sinks} {world after : OutboxWorld} (fair : world.Fair sinks)
    {op : OutboxOp} (done : op.step sinks world = some after)
    : after.Fair sinks := by
  have grows := OutboxOp.grows done
  cases op with
  | tick now
  | claimDeliveries sink now limit leaseSecs
  | markOutboxDelivered sink id now
  | markOutboxFailed sink id error retryAt
  | markOutboxDead sink id error =>
      obtain rfl := Option.some.inj done
      exact fair.grow grows (fun _ _ found => Or.inl found) (fun _ => Or.inl rfl)
  | commitEvents rows =>
      simp only [OutboxOp.step] at done
      split at done
      next =>
        obtain ⟨events, -, rfl⟩ := Option.map_eq_some_iff.mp done
        exact fair.grow grows (fun _ _ found => Or.inl found) (fun _ => Or.inl rfl)
      next => cases done
  | registerOutboxSink process sink | outboxEnroll process sink =>
      simp only [OutboxOp.step] at done
      split at done
      next =>
        obtain rfl := Option.some.inj done
        have idle : world.Grows (world.withDb world.db) :=
          .of_deliveries (Int.le_refl _) rfl rfl rfl (fun _ _ there => there)
        refine fair.callTo idle (fun _ _ found => Or.inl found) ?_
        have named : sinks.sink sink = sinks.sink (sinks.sink sink).name := by
          rw [sinks.named]
        first
          | exact ⟨named, Int.le_refl _⟩
          | unfold SinkCall.register
            split <;> exact ⟨named, Int.le_refl _, nofun⟩
      next => cases done
  | next process => exact fair.next done

theorem Legacy.fair (sinks : Sinks) (legacy : Legacy)
    : legacy.world.Fair sinks where
  past := legacy.past
  windows _ _ found := nomatch found
  calls _ := trivial

-- Each sink on its own

def SinkCall.sink? : SinkCall → Option String
  | .idle => none
  | .adopting sink .. | .naming sink .. | .reading sink .. | .finding sink .. | .enrolling sink ..
  | .moving sink .. => some sink.name

def OutboxOp.sink? (world : OutboxWorld) : OutboxOp → Option String
  | .tick _ | .commitEvents _ => none
  | .registerOutboxSink _ sink | .outboxEnroll _ sink => some sink
  | .next process => (world.calls process).sink?
  | .claimDeliveries sink .. | .markOutboxDelivered sink .. | .markOutboxFailed sink ..
  | .markOutboxDead sink .. => some sink

/-- Whether two stores have the same of a sink: its window and its deliveries. -/
def OutboxDb.SameOf (before after : OutboxDb) (sink : String) : Prop :=
  after.sinks.get? sink = before.sinks.get? sink
    ∧ ∀ id, after.deliveries.get? (id, sink) = before.deliveries.get? (id, sink)

theorem OutboxDb.sameOf_deliver (db : OutboxDb) {sink other : String} (differ : other ≠ sink)
    (rows : List OutboxRow)
    : db.SameOf (db.deliver sink rows) other := by
  obtain ⟨kept, added, -⟩ := Table.get?_insertOrIgnore_foldl db.deliveries (rows.map (deliveryOf sink))
  refine ⟨rfl, ?_⟩
  intro id
  apply Option.ext
  intro delivery
  constructor
  · intro found
    rcases added (id, other) delivery found with old | ⟨-, new⟩
    · exact old
    · obtain ⟨row, -, rfl⟩ := List.mem_map.mp new
      have key : (row.id, sink) = (id, other) := Table.key_of_get? found
      exact absurd (congrArg Prod.snd key).symm differ
  · exact kept _ _

theorem OutboxDb.sameOf_update (db : OutboxDb) {sink other : String} (differ : other ≠ sink)
    {cond : DeliveryRow → Prop} [DecidablePred cond] (own : ∀ row, cond row → row.sink = sink)
    {set : DeliveryRow → DeliveryRow} (keeps : ∀ row, Keyed.key (set row) = Keyed.key row)
    : db.SameOf { db with deliveries := db.deliveries.update cond set keeps } other := by
  refine ⟨rfl, ?_⟩
  intro id
  rw [Table.get?_update keeps]
  cases found : db.deliveries.get? (id, other) with
  | none => rfl
  | some row =>
      have key : (row.outboxId, row.sink) = (id, other) := Table.key_of_get? found
      have unmet : ¬ cond row := fun met =>
        differ ((congrArg Prod.snd key).symm.trans (own row met))
      rw [Option.map_some, if_neg unmet]

theorem OutboxDb.sameOf_nameSink (db : OutboxDb) {sink : OutboxSink} {other : String}
    (differ : other ≠ sink.name) (now : Time)
    : db.SameOf (db.nameSink sink now) other := by
  obtain ⟨kept, added, -⟩ := Table.get?_insertOrIgnore_foldl db.sinks [⟨sink.name, now, now, now⟩]
  refine ⟨?_, fun _ => rfl⟩
  apply Option.ext
  intro row
  constructor
  · intro found
    rcases added other row found with old | ⟨-, new⟩
    · exact old
    · obtain rfl := List.mem_singleton.mp new
      have key : sink.name = other := Table.key_of_get? found
      exact absurd key.symm differ
  · exact kept _ _

theorem OutboxDb.sameOf_moveCursor (db : OutboxDb) {sink other : String} (differ : other ≠ sink)
    (next : Time)
    : db.SameOf (db.moveCursor sink next) other := by
  refine ⟨?_, fun _ => rfl⟩
  rw [sinks_moveCursor]
  cases found : db.sinks.get? other with
  | none => rfl
  | some row =>
      have key : row.sink = other := Table.key_of_get? found
      rw [Option.map_some, if_neg (fun own => differ (key.symm.trans own.1))]

theorem OutboxOp.sameOf {sinks : Sinks} {op : OutboxOp} {world after : OutboxWorld}
    (done : op.step sinks world = some after) {other : String}
    (differ : op.sink? world ≠ some other)
    : world.db.SameOf after.db other := by
  have same : world.db.SameOf world.db other := ⟨rfl, fun _ => rfl⟩
  have apart {sink : String} (own : op.sink? world = some sink) : other ≠ sink :=
    fun eq => differ (own.trans (congrArg some eq.symm))
  cases op with
  | tick now =>
      obtain rfl := Option.some.inj done
      exact same
  | commitEvents rows =>
      simp only [OutboxOp.step] at done
      split at done
      next =>
        obtain ⟨events, -, rfl⟩ := Option.map_eq_some_iff.mp done
        exact same
      next => cases done
  | registerOutboxSink process sink | outboxEnroll process sink =>
      simp only [OutboxOp.step] at done
      split at done
      · obtain rfl := Option.some.inj done
        exact same
      · cases done
  | next process =>
      simp only [OutboxOp.step, OutboxWorld.next] at done
      simp only [OutboxOp.sink?] at apart
      cases place : world.calls process with
      | idle => simp [place] at done
      | adopting sink now enrolment | enrolling sink now cursor found =>
          simp only [place, Option.some.injEq] at done apart
          subst done
          exact world.db.sameOf_deliver (apart rfl) _
      | naming sink now enrolment =>
          simp only [place, Option.some.injEq] at done apart
          subst done
          exact world.db.sameOf_nameSink (apart rfl) _
      | reading sink now =>
          simp only [place] at done
          split at done <;> obtain rfl := Option.some.inj done <;> exact same
      | finding sink now since cursor =>
          simp only [place, Option.some.injEq] at done
          subst done
          exact same
      | moving sink now cursor found =>
          simp only [place, Option.some.injEq] at done apart
          subst done
          split
          · exact world.db.sameOf_moveCursor (apart rfl) _
          · exact same
  | claimDeliveries | markOutboxDelivered | markOutboxFailed | markOutboxDead =>
      obtain rfl := Option.some.inj done
      exact world.db.sameOf_update (apart rfl) (fun _ met => met.1) _

-- Whole runs

/-- Whether a delivery is what a transaction may leave of one: in the same status, or no longer
pending where its sink acknowledged it or gave it up.
-/
def OutboxOp.leaves (op : OutboxOp) (before after : DeliveryRow) : Prop :=
  after.status = before.status
    ∨ before.status = .pending
      ∧ ((∃ now, op = .markOutboxDelivered before.sink before.outboxId now)
          ∧ after.status = .delivered
        ∨ (∃ error, op = .markOutboxDead before.sink before.outboxId error)
          ∧ after.status = .dead)

theorem OutboxDb.get?_update_deliveries (db : OutboxDb) {cond : DeliveryRow → Prop}
    [DecidablePred cond] {set : DeliveryRow → DeliveryRow} {op : OutboxOp}
    (leaves : ∀ row, cond row → op.leaves row (set row)) {key : Nat × String} {row : DeliveryRow}
    (found : db.deliveries.get? key = some row)
    (keeps : ∀ row, Keyed.key (set row) = Keyed.key row := by intros; rfl)
    : ∃ row', (db.deliveries.update cond set keeps).get? key = some row' ∧ op.leaves row row' := by
  rw [Table.get?_update keeps, found, Option.map_some]
  split
  next met => exact ⟨_, rfl, leaves row met⟩
  next => exact ⟨row, rfl, Or.inl rfl⟩

theorem OutboxOp.lasting {sinks : Sinks} {op : OutboxOp} {world after : OutboxWorld}
    (done : op.step sinks world = some after) {key : Nat × String} {row : DeliveryRow}
    (found : world.db.deliveries.get? key = some row)
    : ∃ row', after.db.deliveries.get? key = some row' ∧ op.leaves row row' := by
  have same : ∃ row', world.db.deliveries.get? key = some row' ∧ op.leaves row row' :=
    ⟨row, found, Or.inl rfl⟩
  have delivered (sink : String) (rows : List OutboxRow)
      : ∃ row', (world.db.deliver sink rows).deliveries.get? key = some row'
          ∧ op.leaves row row' :=
    ⟨row, (Table.get?_insertOrIgnore_foldl world.db.deliveries _).1 key row found, Or.inl rfl⟩
  cases op with
  | tick now =>
      obtain rfl := Option.some.inj done
      exact same
  | commitEvents rows =>
      simp only [OutboxOp.step] at done
      split at done
      next =>
        obtain ⟨events, -, rfl⟩ := Option.map_eq_some_iff.mp done
        exact same
      next => cases done
  | registerOutboxSink process sink | outboxEnroll process sink =>
      simp only [OutboxOp.step] at done
      split at done
      · obtain rfl := Option.some.inj done
        exact same
      · cases done
  | next process =>
      simp only [OutboxOp.step, OutboxWorld.next] at done
      cases place : world.calls process with
      | idle => simp [place] at done
      | adopting sink now enrolment | enrolling sink now cursor found =>
          simp only [place, Option.some.injEq] at done
          subst done
          exact delivered ..
      | naming sink now enrolment | finding sink now since cursor =>
          simp only [place, Option.some.injEq] at done
          subst done
          exact same
      | reading sink now =>
          simp only [place] at done
          split at done <;> obtain rfl := Option.some.inj done <;> exact same
      | moving sink now cursor found =>
          simp only [place, Option.some.injEq] at done
          subst done
          split <;> exact same
  | markOutboxDelivered sink id now =>
      obtain rfl := Option.some.inj done
      refine world.db.get?_update_deliveries ?_ found
      rintro row ⟨rfl, rfl, pending⟩
      exact Or.inr ⟨pending, Or.inl ⟨⟨now, rfl⟩, rfl⟩⟩
  | claimDeliveries | markOutboxFailed =>
      obtain rfl := Option.some.inj done
      refine world.db.get?_update_deliveries ?_ found
      exact fun _ _ => Or.inl rfl
  | markOutboxDead sink id error =>
      obtain rfl := Option.some.inj done
      refine world.db.get?_update_deliveries ?_ found
      rintro row ⟨rfl, rfl, pending⟩
      exact Or.inr ⟨pending, Or.inr ⟨⟨error, rfl⟩, rfl⟩⟩

/-- Whether every event for a sink is enrolled, or in reach of its next enrolment. -/
def OutboxWorld.Served (sinks : Sinks) (world : OutboxWorld) : Prop :=
  ∀ name row event, world.db.sinks.get? name = some row
    → world.For (sinks.sink name) row.since event
    → world.db.enrolled name event.id ∨ outboxEnrolFrom row.since row.cursor ≤ event.createdAt

/-- What the commits of a run do to the sinks. -/
structure SinkCommit (sinks : Sinks) (commit : Commit OutboxWorld OutboxOp) : Prop where
  /-- No cursor moves back. -/
  cursors
    : ∀ name row, commit.before.db.sinks.get? name = some row
      → ∃ row', commit.after.db.sinks.get? name = some row'
          ∧ row'.since = row.since ∧ row.cursor ≤ row'.cursor
  /-- No delivery is lost, nor its status but to its sink's word. -/
  lasting
    : ∀ key row, commit.before.db.deliveries.get? key = some row
      → ∃ row', commit.after.db.deliveries.get? key = some row' ∧ commit.label.leaves row row'
  /-- No other sink is touched. -/
  others
    : ∀ other, commit.label.sink? commit.before ≠ some other
      → commit.before.db.SameOf commit.after.db other
  /-- An enrolment finds every event for its sink, or a full page of earlier ones. -/
  finds
    : ∀ process sink now since cursor, commit.label = .next process
      → commit.before.calls process = .finding sink now since cursor
      → ∃ found row, commit.after.calls process = .enrolling sink now cursor found
          ∧ commit.before.db.sinks.get? sink.name = some row
          ∧ ∀ event, commit.before.For sink row.since event
            → commit.before.db.enrolled sink.name event.id ∨ event ∈ found
              ∨ found.length = outboxEnrollRows
                ∧ ∀ other ∈ found, OutboxDb.before other event
  /-- And hands out each it found. -/
  hands
    : ∀ process sink now cursor found, commit.label = .next process
      → commit.before.calls process = .enrolling sink now cursor found
      → ∀ event ∈ found, commit.after.db.enrolled sink.name event.id

theorem OutboxWorld.Fair.served {sinks : Sinks} {world : OutboxWorld} (fair : world.Fair sinks)
    : world.Served sinks := by
  intro name row event found asked
  by_cases behind : event.createdAt + seconds outboxLateCommitSecs < row.cursor
  · rcases (fair.windows name row found).behind event asked behind with there | none
    · rw [sinks.named] at there
      exact Or.inl there
    · cases none
  · refine Or.inr (max_le ?_ asked.since)
    unfold Time at *
    omega

theorem OutboxWorld.Fair.finds {sinks : Sinks} {world : OutboxWorld} (fair : world.Fair sinks)
    {process : Nat} {sink : OutboxSink} {now since cursor : Time}
    (place : world.calls process = .finding sink now since cursor)
    : ∃ row, world.db.sinks.get? sink.name = some row
        ∧ ∀ event, world.For sink row.since event
          → world.db.enrolled sink.name event.id
            ∨ event ∈ world.db.findEvents sink (outboxEnrolFrom since cursor)
            ∨ (world.db.findEvents sink (outboxEnrolFrom since cursor)).length = outboxEnrollRows
              ∧ ∀ other ∈ world.db.findEvents sink (outboxEnrolFrom since cursor),
                OutboxDb.before other event := by
  have call := fair.calls process
  rw [place] at call
  obtain ⟨named, -, row, there, rfl, read⟩ := call
  refine ⟨row, there, ?_⟩
  intro event asked
  by_cases enrolled : world.db.enrolled sink.name event.id
  · exact Or.inl enrolled
  · right
    apply (world.db.findEvents_spec sink _).2 event asked.among ⟨asked.pending, asked.wanted, enrolled⟩
    rw [named] at asked
    rcases fair.served sink.name row event there asked with handed | reach
    · exact absurd handed enrolled
    · unfold outboxEnrolFrom at reach ⊢
      unfold Time at *
      omega

theorem OutboxWorld.Fair.commit {sinks : Sinks} {world after : OutboxWorld}
    (fair : world.Fair sinks) {op : OutboxOp} (done : op.step sinks world = some after)
    : SinkCommit sinks ⟨op, world, after⟩ where
  cursors := (OutboxOp.grows done).sinks
  lasting _ _ := OutboxOp.lasting done
  others _ := OutboxOp.sameOf done
  finds := by
    rintro process sink now since cursor rfl place
    dsimp only at place
    simp only [OutboxOp.step, OutboxWorld.next, place, Option.some.injEq] at done
    subst done
    obtain ⟨row, there, finds⟩ := fair.finds place
    exact ⟨_, row, Function.update_self .., there, finds⟩
  hands := by
    rintro process sink now cursor found rfl place event among
    have call := fair.calls process
    dsimp only at place
    rw [place] at call
    simp only [OutboxOp.step, OutboxWorld.next, place, Option.some.injEq] at done
    subst done
    exact OutboxDb.enrolled_enrollFound call.2.1 among

/-- Over every run of writers and of the processes of any number of sinks, no enrolment passes by
an event that is for its sink, and each sink's deliveries and cursor are its own concern.
-/
theorem sinks_served {sinks : Sinks} {legacy : Legacy} {commits : List (Commit OutboxWorld OutboxOp)}
    {world : OutboxWorld}
    (history : (outboxStore sinks legacy).History (fun _ _ => True) legacy.world commits world)
    : world.Served sinks
        ∧ ∀ commit ∈ commits, commit.before.Served sinks ∧ commit.after.Served sinks
          ∧ SinkCommit sinks commit := by
  have whole : world.Fair sinks
      ∧ ∀ commit ∈ commits, commit.before.Fair sinks ∧ commit.after.Fair sinks
        ∧ SinkCommit sinks commit := by
    refine history.rule (legacy.fair sinks) ?_
    intro op origin fair commit member _ _
    obtain ⟨after, done, rfl⟩ := mem_commitsFrom_toList.mp member
    exact ⟨fair.step done, fair.commit done⟩
  obtain ⟨last, every⟩ := whole
  refine ⟨last.served, ?_⟩
  intro commit member
  obtain ⟨before, after, facts⟩ := every commit member
  exact ⟨before.served, after.served, facts⟩

def plainSinks : Sinks where
  sink name := ⟨name, [], false⟩
  named _ := rfl

def emptyOutbox : Legacy where
  events := .empty
  perSinkSince := 0
  clock := 1
  past row among := absurd among (Table.not_mem_empty row)

/-- A sink is registered while a transaction that wrote an event before is still to commit. -/
def registeredBetween : List OutboxOp :=
  [.tick 2, .registerOutboxSink 0 "hook", .next 0,
    .commitEvents [{ id := 7, runId := 0, eventType := "run.completed", payload := "", createdAt := 1 }],
    .outboxEnroll 0 "hook", .next 0, .next 0, .next 0, .next 0]

theorem sinks_served_registeredBetween
    : ((outboxStore plainSinks emptyOutbox).outcome emptyOutbox.world registeredBetween).Served
        plainSinks :=
  (sinks_served (.whole .start (by decide))).1

/-- An event that commits in time and after a sink was registered may carry an earlier time than
that, and is then out of its reach.
-/
theorem not_served_since_registration
    : ¬ ∀ (sinks : Sinks) (legacy : Legacy) (commits : List (Commit OutboxWorld OutboxOp))
        (world : OutboxWorld),
        (outboxStore sinks legacy).History (fun _ _ => True) legacy.world commits world
        → ∀ name row event, world.db.sinks.get? name = some row
          → event ∈ world.db.events → event.status = .pending
          → (sinks.sink name).wants event.eventType
          → row.registeredAt ≤ world.committedAt event.id
          → world.committedAt event.id ≤ event.createdAt + seconds outboxLateCommitSecs
          → world.db.enrolled name event.id
            ∨ outboxEnrolFrom row.since row.cursor ≤ event.createdAt := by
  intro served
  have history : (outboxStore plainSinks emptyOutbox).History (fun _ _ => True)
      emptyOutbox.world ([] ++ (outboxStore plainSinks emptyOutbox).trace emptyOutbox.world
        registeredBetween)
      ((outboxStore plainSinks emptyOutbox).outcome emptyOutbox.world registeredBetween) :=
    .whole .start (by decide)
  have reached := served _ _ _ _ history "hook" ⟨"hook", 2, 2, 2⟩
    { id := 7, runId := 0, eventType := "run.completed", payload := "", createdAt := 1 }
    (by decide) (List.mem_of_elem_eq_true (by decide)) (by decide) (by decide) (by decide) (by decide)
  revert reached
  decide

end Dagron.Store
