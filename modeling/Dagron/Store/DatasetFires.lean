import Dagron.Store.Datasets
import Mathlib.Data.List.Pairwise
import Mathlib.Data.String.Basic
import Mathlib.Order.Nat

/-! Dataset triggers over whole runs: no update is taken by two fires, none is lost, and a
refused fire gives back what its claim took.
-/

namespace Dagron.Store

open Dagron.Library

-- High-water marks and cursors

/-- The cursor of a workflow's subscription to a dataset, if it has one. -/
def DatasetDb.cursor? (db : DatasetDb) (key : String × String) : Option Nat :=
  (db.triggers.get? key).map DatasetTrigger.cursor

/-- The largest id of some entries, or the number to start from, is at or above each and is
one of them, by induction over the entries.
-/
theorem foldl_max_spec {Entry : Type} (entries : List (Entry × Nat)) (start : Nat)
    : start ≤ entries.foldl (fun mark entry => max mark entry.2) start
        ∧ (∀ entry ∈ entries, entry.2 ≤ entries.foldl (fun mark entry => max mark entry.2) start)
        ∧ (entries.foldl (fun mark entry => max mark entry.2) start = start
          ∨ ∃ entry ∈ entries,
              entry.2 = entries.foldl (fun mark entry => max mark entry.2) start) := by
  induction entries generalizing start with
  | nil => simp
  | cons head rest ih =>
      obtain ⟨above, each, one⟩ := ih (max start head.2)
      rw [List.foldl_cons]
      refine ⟨(le_max_left ..).trans above, ?_, ?_⟩
      · rw [List.forall_mem_cons]
        exact ⟨(le_max_right ..).trans above, each⟩
      · rcases one with same | ⟨entry, among, same⟩
        · rcases max_choice start head.2 with first | second
          · exact Or.inl (same.trans first)
          · exact Or.inr ⟨head, List.mem_cons_self, (same.trans second).symm⟩
        · exact Or.inr ⟨entry, List.mem_cons_of_mem _ among, same⟩

theorem DatasetDb.le_highWater {db : DatasetDb} {event : DatasetEvent × Nat} (among : event ∈ db.events)
    : event.2 ≤ db.highWater event.1.uri := by
  apply (foldl_max_spec _ 0).2.1
  rw [List.mem_filter, decide_eq_true_iff]
  exact ⟨among, rfl⟩

theorem DatasetDb.exists_event_of_highWater {db : DatasetDb} {uri : String} (some : 0 < db.highWater uri)
    : ∃ event ∈ db.events, event.1.uri = uri ∧ event.2 = db.highWater uri := by
  rcases (foldl_max_spec ((db.store.datasetEvents.zipIdx 1).filter
    (fun entry => entry.1.uri = uri)) 0).2.2 with none | ⟨event, among, same⟩
  · exact absurd none (Nat.ne_of_gt some)
  · rw [List.mem_filter, decide_eq_true_iff] at among
    exact ⟨event, among.1, among.2, same⟩

theorem DatasetDb.events_append {db db' : DatasetDb} {more : List DatasetEvent}
    (grown : db'.store.datasetEvents = db.store.datasetEvents ++ more)
    : db.events ⊆ db'.events := by
  unfold events
  rw [grown, List.zipIdx_append]
  exact List.subset_append_left ..

theorem DatasetDb.highWater_append {db db' : DatasetDb} {more : List DatasetEvent}
    (grown : db'.store.datasetEvents = db.store.datasetEvents ++ more) (uri : String)
    : db.highWater uri ≤ db'.highWater uri := by
  unfold highWater Db.datasetMark
  rw [grown, List.zipIdx_append, List.filter_append, List.foldl_append]
  exact (foldl_max_spec _ _).1

theorem DatasetDb.cursor?_moveCursor (db : DatasetDb) (workflowName uri : String) (old new : Nat)
    (key : String × String)
    : (db.moveCursor workflowName uri old new).cursor? key
      = if key = (workflowName, uri) ∧ db.cursor? key = some old then some new
        else db.cursor? key := by
  have keeps (trigger : DatasetTrigger)
      : Keyed.key { trigger with cursor := new } = Keyed.key trigger :=
    rfl
  have read : (db.moveCursor workflowName uri old new).triggers.get? key
      = (db.triggers.get? key).map (fun trigger =>
          if trigger.standsAt workflowName uri old then { trigger with cursor := new }
          else trigger) :=
    Table.get?_update keeps key
  unfold DatasetDb.cursor?
  rw [read]
  cases found : db.triggers.get? key with
  | none => simp
  | some trigger =>
      have named : (trigger.workflowName, trigger.uri) = key := Table.key_of_get? found
      subst named
      by_cases stands : trigger.standsAt workflowName uri old
      · obtain ⟨rfl, rfl, rfl⟩ := stands
        simp [DatasetTrigger.standsAt]
      · have other : ¬ (((trigger.workflowName, trigger.uri) = (workflowName, uri))
            ∧ some trigger.cursor = some old) := by
          rintro ⟨same, stood⟩
          exact stands ⟨congrArg Prod.fst same, congrArg Prod.snd same, Option.some.inj stood⟩
        rw [if_neg (fun move => other ⟨move.1, move.2⟩), Option.map_some, if_neg stands]

theorem DatasetDb.cursor?_of_count {db : DatasetDb} {workflowName uri : String} {cursor : Nat}
    (found : ¬ db.triggers.count (DatasetTrigger.standsAt workflowName uri cursor) = 0)
    : db.cursor? (workflowName, uri) = some cursor := by
  obtain ⟨trigger, among, stands⟩ := List.countP_pos_iff.mp (Nat.pos_of_ne_zero found)
  obtain ⟨rfl, rfl, rfl⟩ := of_decide_eq_true stands
  have read : db.triggers.get? (Keyed.key trigger) = some trigger := Table.get?_of_mem among
  exact congrArg (Option.map DatasetTrigger.cursor) read

-- Subscriptions

theorem DatasetDb.cursor?_delete {db : DatasetDb} {cond : DatasetTrigger → Prop}
    [DecidablePred cond] {key : String × String} {cursor : Nat}
    (stood : (db.withTriggers (db.triggers.delete cond)).cursor? key = some cursor)
    : db.cursor? key = some cursor := by
  obtain ⟨trigger, found, same⟩ := Option.map_eq_some_iff.mp stood
  have read : (db.triggers.get? key).filter (fun trigger => ¬ cond trigger) = some trigger := by
    rw [← Table.get?_delete]
    exact found
  exact Option.map_eq_some_iff.mpr ⟨trigger, (Option.filter_eq_some_iff.mp read).1, same⟩

theorem DatasetDb.subscribe_spec (db : DatasetDb) (workflowName mode uri : String)
    : ∃ triggers, db.subscribe workflowName mode uri = db.withTriggers triggers
        ∧ (∀ key cursor, db.cursor? key = some cursor →
            (db.withTriggers triggers).cursor? key = some cursor)
        ∧ ∀ key cursor, (db.withTriggers triggers).cursor? key = some cursor →
            db.cursor? key = some cursor
              ∨ key = (workflowName, uri) ∧ db.cursor? key = none ∧ cursor = db.highWater uri := by
  unfold subscribe
  cases done : db.triggers.insert ⟨workflowName, uri, db.highWater uri, mode⟩ with
  | some triggers =>
      refine ⟨triggers, rfl, ?_⟩
      obtain ⟨fresh, read⟩ := Table.get?_insert done
      have absent : db.cursor? (workflowName, uri) = none :=
        congrArg (Option.map DatasetTrigger.cursor) fresh
      have reads (key : String × String)
          : (db.withTriggers triggers).cursor? key
            = if key = (workflowName, uri) then some (db.highWater uri) else db.cursor? key := by
        unfold cursor? withTriggers
        rw [read key]
        by_cases named : key = (workflowName, uri) <;> simp [Keyed.key, named]
      constructor
      · intro key cursor stood
        rw [reads, if_neg]
        · exact stood
        · rintro rfl
          simp [absent] at stood
      · intro key cursor stood
        rw [reads] at stood
        split at stood
        next named =>
          subst named
          exact Or.inr ⟨rfl, absent, (Option.some.inj stood).symm⟩
        next => exact Or.inl stood
  | none =>
      have keeps (trigger : DatasetTrigger)
          : Keyed.key { trigger with mode := mode } = Keyed.key trigger :=
        rfl
      refine ⟨_, rfl, ?_⟩
      have reads (key : String × String)
          : (db.withTriggers (db.triggers.update
              (fun trigger => trigger.workflowName = workflowName ∧ trigger.uri = uri)
              (fun trigger => { trigger with mode }))).cursor? key = db.cursor? key := by
        have read : (db.triggers.update
              (fun trigger => trigger.workflowName = workflowName ∧ trigger.uri = uri)
              (fun trigger => { trigger with mode })).get? key
            = (db.triggers.get? key).map (fun trigger =>
                if trigger.workflowName = workflowName ∧ trigger.uri = uri
                then { trigger with mode } else trigger) :=
          Table.get?_update keeps key
        unfold cursor? withTriggers
        rw [read, Option.map_map]
        congr 1
        funext trigger
        dsimp only [Function.comp_apply]
        split <;> rfl
      constructor
      · intro key cursor stood
        rw [reads]
        exact stood
      · intro key cursor stood
        rw [reads] at stood
        exact Or.inl stood

theorem DatasetDb.subscribeAll_spec (db : DatasetDb) (workflowName mode : String) (uris : List String)
    : ∃ triggers, uris.foldl (DatasetDb.subscribe workflowName mode) db = db.withTriggers triggers
        ∧ ∀ key cursor, (db.withTriggers triggers).cursor? key = some cursor →
            db.cursor? key = some cursor
              ∨ key.1 = workflowName ∧ key.2 ∈ uris ∧ db.cursor? key = none
                ∧ cursor = db.highWater key.2 := by
  induction uris generalizing db with
  | nil => exact ⟨db.triggers, rfl, fun _ _ stood => Or.inl stood⟩
  | cons uri rest ih =>
      obtain ⟨first, done, kept, opens⟩ := db.subscribe_spec workflowName mode uri
      obtain ⟨triggers, finished, reads⟩ := ih (db.withTriggers first)
      refine ⟨triggers, ?_, ?_⟩
      · rw [List.foldl_cons, done]
        exact finished
      · intro key cursor stood
        rcases reads key cursor stood with old | ⟨workflow, among, absent, mark⟩
        · rcases opens key cursor old with older | ⟨rfl, absent, mark⟩
          · exact Or.inl older
          · exact Or.inr ⟨rfl, List.mem_cons_self, absent, mark⟩
        · refine Or.inr ⟨workflow, List.mem_cons_of_mem _ among, ?_, mark⟩
          cases before : db.cursor? key with
          | none => rfl
          | some cursor =>
              rw [kept key cursor before] at absent
              cases absent

theorem infix_delimited {uri : String} {uris : List String} (among : uri ∈ uris)
    : (delimited uri).toList <:+: (delimited (String.intercalate "\u001f" uris)).toList := by
  induction uris with
  | nil => cases among
  | cons head rest ih =>
      cases rest with
      | nil =>
          obtain rfl := List.mem_singleton.mp among
          rw [String.intercalate_singleton]
      | cons next tail =>
          rw [String.intercalate_cons_cons]
          unfold delimited at ih ⊢
          simp only [String.toList_append, List.append_assoc] at ih ⊢
          rcases List.mem_cons.mp among with rfl | later
          · refine List.IsPrefix.isInfix
              ⟨(String.intercalate "\u001f" (next :: tail)).toList ++ "\u001f".toList, ?_⟩
            simp only [List.append_assoc]
          · refine (ih later).trans (List.IsSuffix.isInfix ⟨"\u001f".toList ++ head.toList, ?_⟩)
            simp only [List.append_assoc]

/-- A sync keeps the cursor of every subscription it leaves, and opens the others at the
current marks: a declared one is not deleted first.
-/
theorem syncDatasetTriggers_spec (db : DatasetDb) (workflowName : String) (uris : List String)
    (mode : String)
    : ∃ triggers, syncDatasetTriggers db workflowName uris mode = db.withTriggers triggers
        ∧ ∀ key cursor, (db.withTriggers triggers).cursor? key = some cursor →
            db.cursor? key = some cursor
              ∨ db.cursor? key = none ∧ cursor = db.highWater key.2 := by
  unfold syncDatasetTriggers
  split
  · exact ⟨_, rfl, fun key cursor stood => Or.inl (DatasetDb.cursor?_delete stood)⟩
  · obtain ⟨triggers, done, reads⟩ := DatasetDb.subscribeAll_spec
      (db.withTriggers (db.triggers.delete (fun trigger =>
        trigger.workflowName = workflowName
          ∧ ¬ (delimited trigger.uri).toList
            <:+: (delimited (String.intercalate "\u001f" uris)).toList))) workflowName mode uris
    refine ⟨triggers, done, ?_⟩
    intro key cursor stood
    rcases reads key cursor stood with kept | ⟨workflow, among, absent, mark⟩
    · exact Or.inl (DatasetDb.cursor?_delete kept)
    · refine Or.inr ⟨?_, mark⟩
      cases found : db.triggers.get? key with
      | none => exact congrArg (Option.map DatasetTrigger.cursor) found
      | some trigger =>
          have named : (trigger.workflowName, trigger.uri) = key := Table.key_of_get? found
          subst named
          unfold DatasetDb.cursor? DatasetDb.withTriggers at absent
          rw [Option.map_eq_none_iff, Table.get?_delete, found, Option.filter_some, if_pos] at absent
          · cases absent
          · simp [infix_delimited among]

-- Which updates are taken

def Advance.Apart (first second : String × Advance) : Prop :=
  first.1 = second.1 → first.2.uri = second.2.uri →
    first.2.new ≤ second.2.prev ∨ second.2.new ≤ first.2.prev

instance : Std.Symm Advance.Apart where
  symm _ _ apart workflow dataset := (apart workflow.symm dataset.symm).symm

/-- What holds of the tables, the moves held, and where subscriptions were opened: no cursor is
past its dataset's mark or behind a move held, no update is in two moves held, and a cursor
at a mark newer than its opening is there by a move held.
-/
structure DatasetDb.Fair (db : DatasetDb) (held : List (String × Advance))
    (opened : String × String → Nat) : Prop where
  below
    : ∀ key cursor, db.cursor? key = some cursor → cursor ≤ db.highWater key.2
  reached
    : ∀ claim ∈ held, claim.2.prev < claim.2.new ∧ claim.2.new ≤ db.highWater claim.2.uri
  passed
    : ∀ claim ∈ held, ∀ cursor, db.cursor? (claim.1, claim.2.uri) = some cursor
      → claim.2.new ≤ cursor
  apart
    : held.Pairwise Advance.Apart
  taken
    : ∀ key, db.cursor? key = some (db.highWater key.2) → opened key < db.highWater key.2
      → ∃ moved, (key.1, moved) ∈ held ∧ moved.uri = key.2 ∧ moved.new = db.highWater key.2

namespace DatasetDb.Fair

variable {db : DatasetDb} {held : List (String × Advance)} {opened : String × String → Nat}

theorem record (fair : db.Fair held opened) {store : Db} {more : List DatasetEvent}
    (grown : store.datasetEvents = db.store.datasetEvents ++ more)
    : DatasetDb.Fair ⟨store, db.triggers⟩ held opened where
  below key cursor stood := (fair.below key cursor stood).trans (highWater_append grown key.2)
  reached claim among :=
    ⟨(fair.reached claim among).1, (fair.reached claim among).2.trans (highWater_append grown claim.2.uri)⟩
  passed := fair.passed
  apart := fair.apart
  taken key stood newer := by
    have mark : db.highWater key.2 = DatasetDb.highWater ⟨store, db.triggers⟩ key.2 :=
      Nat.le_antisymm (highWater_append grown key.2) (fair.below key _ stood)
    rw [← mark] at stood newer ⊢
    exact fair.taken key stood newer

theorem resubscribe (fair : db.Fair held opened) {triggers : Table DatasetTrigger}
    {opened' : String × String → Nat}
    (cursors : ∀ key cursor, (db.withTriggers triggers).cursor? key = some cursor →
      db.cursor? key = some cursor ∧ opened' key = opened key
        ∨ cursor = db.highWater key.2 ∧ opened' key = db.highWater key.2)
    : (db.withTriggers triggers).Fair held opened' where
  below key cursor stood := by
    rcases cursors key cursor stood with ⟨old, -⟩ | ⟨mark, -⟩
    · exact fair.below key cursor old
    · exact mark.le
  reached := fair.reached
  passed claim among cursor stood := by
    rcases cursors _ cursor stood with ⟨old, -⟩ | ⟨mark, -⟩
    · exact fair.passed claim among cursor old
    · exact (fair.reached claim among).2.trans mark.ge
  apart := fair.apart
  taken key stood newer := by
    rcases cursors key _ stood with ⟨old, same⟩ | ⟨-, mark⟩
    · exact fair.taken key old (same ▸ newer)
    · exact absurd mark (Nat.ne_of_lt newer)

theorem advance (fair : db.Fair held opened) {workflowName : String} {moved : Advance}
    (stands : db.cursor? (workflowName, moved.uri) = some moved.prev)
    (forward : moved.prev < moved.new) (mark : moved.new ≤ db.highWater moved.uri)
    : (db.moveCursor workflowName moved.uri moved.prev moved.new).Fair
        (held ++ [(workflowName, moved)]) opened where
  below key cursor stood := by
    rw [cursor?_moveCursor] at stood
    split at stood
    next here =>
      obtain rfl := Option.some.inj stood
      rw [here.1]
      exact mark
    next => exact fair.below key cursor stood
  reached claim among := by
    rcases List.mem_append.mp among with old | new
    · exact fair.reached claim old
    · rw [List.mem_singleton.mp new]
      exact ⟨forward, mark⟩
  passed claim among cursor stood := by
    rw [cursor?_moveCursor] at stood
    rcases List.mem_append.mp among with old | new
    · split at stood
      next here =>
        obtain rfl := Option.some.inj stood
        exact (fair.passed claim old _ here.2).trans forward.le
      next => exact fair.passed claim old cursor stood
    · obtain rfl := List.mem_singleton.mp new
      rw [if_pos ⟨rfl, stands⟩] at stood
      exact (Option.some.inj stood).le
  apart := by
    refine List.pairwise_append.mpr ⟨fair.apart, List.pairwise_singleton _ _, ?_⟩
    intro claim old new among workflow dataset
    obtain rfl := List.mem_singleton.mp among
    left
    apply fair.passed claim old
    rw [workflow, dataset]
    exact stands
  taken key stood newer := by
    rw [cursor?_moveCursor] at stood
    split at stood
    next here =>
      have same : moved.new = db.highWater key.2 := Option.some.inj stood
      refine ⟨moved, List.mem_append_right _ ?_, ?_, same⟩
      · rw [here.1]
        exact List.mem_singleton_self _
      · rw [here.1]
    next =>
      obtain ⟨other, among, facts⟩ := fair.taken key stood newer
      exact ⟨other, List.mem_append_left _ among, facts⟩

theorem nodup (fair : db.Fair held opened)
    : held.Nodup := by
  refine fair.apart.imp_of_mem ?_
  rintro first _ among - apart rfl
  have forward := (fair.reached first among).1
  rcases apart rfl rfl with behind | behind <;> omega

/-- Handing back a move held keeps the facts: where the cursor still stands at its end, no
other move held reaches past its start; where it does not, a newer mark is taken by another
move or still to be taken.
-/
theorem handBack (fair : db.Fair held opened) {workflowName : String} {moved : Advance}
    (member : (workflowName, moved) ∈ held)
    : (db.moveCursor workflowName moved.uri moved.new moved.prev).Fair
        (held.erase (workflowName, moved)) opened where
  below key cursor stood := by
    rw [cursor?_moveCursor] at stood
    split at stood
    next here =>
      obtain rfl := Option.some.inj stood
      rw [here.1]
      exact (fair.reached _ member).1.le.trans (fair.reached _ member).2
    next => exact fair.below key cursor stood
  reached claim among := fair.reached claim (List.mem_of_mem_erase among)
  passed claim among cursor stood := by
    have old := List.mem_of_mem_erase among
    rw [cursor?_moveCursor] at stood
    split at stood
    next here =>
      obtain rfl := Option.some.inj stood
      have other : claim ≠ (workflowName, moved) := (fair.nodup.mem_erase_iff.mp among).1
      have apart : Advance.Apart claim (workflowName, moved) :=
        fair.apart.forall old member other
      have forward := (fair.reached claim old).1
      have behind : claim.2.new ≤ moved.new := fair.passed claim old _ here.2
      have workflow : claim.1 = workflowName := congrArg Prod.fst here.1
      have dataset : claim.2.uri = moved.uri := congrArg Prod.snd here.1
      have parted : claim.2.new ≤ moved.prev ∨ moved.new ≤ claim.2.prev := apart workflow dataset
      rcases parted with before | after
      · exact before
      · omega
    next => exact fair.passed claim old cursor stood
  apart := fair.apart.sublist List.erase_sublist
  taken key stood newer := by
    rw [cursor?_moveCursor] at stood
    have forward : moved.prev < moved.new := (fair.reached _ member).1
    have mark : moved.new ≤ db.highWater moved.uri := (fair.reached _ member).2
    split at stood
    next here =>
      have same : moved.prev = db.highWater key.2 := Option.some.inj stood
      rw [congrArg Prod.snd here.1] at same
      exact absurd (same ▸ forward) (Nat.not_lt.mpr mark)
    next elsewhere =>
      obtain ⟨other, among, dataset, new⟩ := fair.taken key stood newer
      refine ⟨other, fair.nodup.mem_erase_iff.mpr ⟨?_, among⟩, dataset, new⟩
      intro same
      obtain ⟨workflow, rfl⟩ := Prod.mk.inj same
      apply elsewhere
      rw [← workflow, dataset, new]
      exact ⟨rfl, stood⟩

theorem advanceEach {db' : DatasetDb} {workflowName : String} {subs : List TriggerSub}
    (fair : db.Fair held opened) (done : db.advanceEach workflowName subs = some db')
    (fresh : ∀ sub ∈ subs, sub.fresh ∧ sub.maxId ≤ db.highWater sub.uri)
    : db'.Fair (held ++ subs.map (fun sub => (workflowName, sub.advance))) opened := by
  induction subs generalizing db held with
  | nil =>
      obtain rfl := Option.some.inj done
      rw [List.map_nil, List.append_nil]
      exact fair
  | cons sub rest ih =>
      unfold DatasetDb.advanceEach at done
      split at done
      · cases done
      next found =>
        obtain ⟨newer, mark⟩ := fresh sub List.mem_cons_self
        have stands : db.cursor? (workflowName, sub.advance.uri) = some sub.advance.prev :=
          DatasetDb.cursor?_of_count found
        have forward : sub.advance.prev < sub.advance.new := of_decide_eq_true newer
        have moved : (db.moveCursor workflowName sub.uri sub.cursor sub.maxId).Fair
            (held ++ [(workflowName, sub.advance)]) opened :=
          fair.advance stands forward mark
        have finished := ih moved done (fun sub later => fresh sub (List.mem_cons_of_mem _ later))
        rw [List.append_assoc] at finished
        exact finished

end DatasetDb.Fair

theorem DatasetDb.store_advanceEach {db db' : DatasetDb} {workflowName : String}
    {subs : List TriggerSub} (done : db.advanceEach workflowName subs = some db')
    : db'.store = db.store := by
  induction subs generalizing db with
  | nil => rw [Option.some.inj done]
  | cons sub rest ih =>
      unfold DatasetDb.advanceEach at done
      split at done
      · cases done
      · have same := ih done
        exact same

-- What a claim reads

instance : IsTrans DatasetTrigger DatasetTrigger.before where
  trans first second third := by
    rintro (less | ⟨same, le⟩) (less' | ⟨same', le'⟩)
    · exact Or.inl (less.trans less')
    · exact Or.inl (same' ▸ less)
    · exact Or.inl (same.symm ▸ less')
    · exact Or.inr ⟨same.trans same', le.trans le'⟩

instance : Std.Total DatasetTrigger.before where
  total first second := by
    rcases lt_trichotomy first.workflowName second.workflowName with less | same | more
    · exact Or.inl (Or.inl less)
    · rcases le_total first.uri second.uri with le | ge
      · exact Or.inl (Or.inr ⟨same, le⟩)
      · exact Or.inr (Or.inr ⟨same.symm, ge⟩)
    · exact Or.inr (Or.inl more)

theorem DatasetDb.mem_readTriggers {db : DatasetDb} {workflowName : String} {sub : TriggerSub}
    : (workflowName, sub) ∈ db.readTriggers
      ↔ ∃ trigger ∈ db.triggers, trigger.workflowName = workflowName ∧ db.subOf trigger = sub := by
  simp [readTriggers, Table.mem_iff]

theorem DatasetDb.readTriggers_sorted (db : DatasetDb)
    : db.readTriggers.Pairwise (fun first second => first.1 ≤ second.1) := by
  unfold readTriggers
  rw [List.pairwise_map]
  refine (List.pairwise_insertionSort _ _).imp ?_
  rintro first second (less | ⟨same, -⟩)
  · exact less.le
  · exact same.le

theorem mem_of_mem_byWorkflow {rows : List (String × TriggerSub)} {name : String}
    {subs : List TriggerSub} (among : (name, subs) ∈ byWorkflow rows)
    : subs ≠ [] ∧ ∀ sub ∈ subs, (name, sub) ∈ rows := by
  induction rows generalizing name subs with
  | nil => cases among
  | cons head rest ih =>
      unfold byWorkflow at among
      cases grouped : byWorkflow rest with
      | nil =>
          rw [grouped] at among
          obtain ⟨rfl, rfl⟩ := Prod.mk.inj (List.mem_singleton.mp among)
          simp
      | cons group groups =>
          rw [grouped] at among ih
          dsimp only at among
          split at among
          next same =>
            rcases List.mem_cons.mp among with first | later
            · obtain ⟨rfl, rfl⟩ := Prod.mk.inj first
              refine ⟨List.cons_ne_nil _ _, ?_⟩
              intro sub inside
              rcases List.mem_cons.mp inside with rfl | inside
              · rw [same]
                exact List.mem_cons_self
              · exact List.mem_cons_of_mem _ ((ih List.mem_cons_self).2 sub inside)
            · obtain ⟨some, old⟩ := ih (List.mem_cons_of_mem _ later)
              exact ⟨some, fun sub inside => List.mem_cons_of_mem _ (old sub inside)⟩
          next =>
            rcases List.mem_cons.mp among with first | later
            · obtain ⟨rfl, rfl⟩ := Prod.mk.inj first
              simp
            · obtain ⟨some, old⟩ := ih later
              exact ⟨some, fun sub inside => List.mem_cons_of_mem _ (old sub inside)⟩

theorem byWorkflow_apart {rows : List (String × TriggerSub)}
    (sorted : rows.Pairwise (fun first second => first.1 ≤ second.1))
    : (byWorkflow rows).Pairwise (fun first second => first.1 < second.1) := by
  induction rows with
  | nil => exact .nil
  | cons head rest ih =>
      obtain ⟨first, sorted⟩ := List.pairwise_cons.mp sorted
      have apart := ih sorted
      unfold byWorkflow
      cases grouped : byWorkflow rest with
      | nil => exact List.pairwise_singleton _ _
      | cons group groups =>
          rw [grouped] at apart
          obtain ⟨below, later⟩ := List.pairwise_cons.mp apart
          dsimp only
          split
          · exact List.pairwise_cons.mpr ⟨below, later⟩
          next other =>
            have least : ∀ later ∈ group :: groups, head.1 < later.1 := by
              have next : head.1 < group.1 := by
                have member : (group.1, group.2) ∈ byWorkflow rest := by simp [grouped]
                obtain ⟨some, rows⟩ := mem_of_mem_byWorkflow member
                obtain ⟨sub, inside⟩ := List.exists_mem_of_ne_nil _ some
                exact lt_of_le_of_ne (first _ (rows sub inside)) (Ne.symm other)
              rw [List.forall_mem_cons]
              exact ⟨next, fun later among => next.trans (below later among)⟩
            exact List.pairwise_cons.mpr ⟨least, apart⟩

theorem exists_mem_byWorkflow {rows : List (String × TriggerSub)} {name : String}
    {sub : TriggerSub} (among : (name, sub) ∈ rows)
    : ∃ subs, (name, subs) ∈ byWorkflow rows ∧ sub ∈ subs := by
  induction rows with
  | nil => cases among
  | cons head rest ih =>
      unfold byWorkflow
      cases grouped : byWorkflow rest with
      | nil =>
          rcases List.mem_cons.mp among with rfl | later
          · exact ⟨[sub], by simp, by simp⟩
          · obtain ⟨subs, inside, -⟩ := ih later
            simp [grouped] at inside
      | cons group groups =>
          dsimp only
          rcases List.mem_cons.mp among with rfl | later
          · split
            next same => exact ⟨sub :: group.2, by simp [show group.1 = name from same], by simp⟩
            next => exact ⟨[sub], by simp, by simp⟩
          · obtain ⟨subs, inside, member⟩ := ih later
            rw [grouped] at inside
            split
            next same =>
              rcases List.mem_cons.mp inside with rfl | inside
              · exact ⟨head.2 :: subs, by simp, List.mem_cons_of_mem _ member⟩
              · exact ⟨subs, List.mem_cons_of_mem _ inside, member⟩
            next => exact ⟨subs, List.mem_cons_of_mem _ inside, member⟩

theorem DatasetDb.mem_group {db : DatasetDb} {name : String} {subs : List TriggerSub}
    (group : (name, subs) ∈ byWorkflow db.readTriggers) (sub : TriggerSub)
    : sub ∈ subs
      ↔ ∃ trigger ∈ db.triggers, trigger.workflowName = name ∧ db.subOf trigger = sub := by
  rw [← mem_readTriggers]
  constructor
  · exact (mem_of_mem_byWorkflow group).2 sub
  · intro among
    obtain ⟨others, other, member⟩ := exists_mem_byWorkflow among
    have distinct : ((byWorkflow db.readTriggers).map Prod.fst).Nodup :=
      List.pairwise_map.mpr ((byWorkflow_apart db.readTriggers_sorted).imp (fun less => less.ne))
    have one : (name, subs) = (name, others) :=
      List.inj_on_of_nodup_map distinct group other rfl
    rw [(Prod.mk.inj one).2]
    exact member

/-- What is fired: at least one subscription, each with an update past its cursor, and in `all`
mode every subscription read.
-/
theorem claimGroup_spec {db db' : DatasetDb} {workflowName : String} {subs : List TriggerSub}
    {fire : DatasetFire} (done : claimGroup db workflowName subs = some (db', fire))
    : ∃ fresh, fresh = subs.filter TriggerSub.fresh ∧ fresh ≠ []
        ∧ db.advanceEach workflowName fresh = some db'
        ∧ fire.workflowName = workflowName ∧ fire.advanced = fresh.map TriggerSub.advance
        ∧ ((∃ sub ∈ subs, sub.mode = "all") → fresh = subs) := by
  unfold claimGroup at done
  split at done
  · cases done
  next first rest fresh =>
    split at done
    · cases done
    next due =>
      obtain ⟨after, advanced, same⟩ := Option.map_eq_some_iff.mp done
      obtain ⟨rfl, rfl⟩ := Prod.mk.inj same
      refine ⟨_, fresh.symm, by simp, advanced, rfl, rfl, ?_⟩
      rintro ⟨sub, among, mode⟩
      have every : ¬ (first :: rest).length < subs.length := fun fewer =>
        due ⟨List.any_eq_true.mpr ⟨sub, among, by simp [mode]⟩, fewer⟩
      rw [← fresh] at every ⊢
      exact List.filter_sublist.eq_of_length_le (Nat.not_lt.mp every)

-- Sweeps

def DatasetFire.claims (fire : DatasetFire) : List (String × Advance) :=
  fire.advanced.map (fun moved => (fire.workflowName, moved))

/-- The moves a sweep has claimed and may yet hand back. -/
def TriggerSweep.claims : TriggerSweep → List (String × Advance)
  | .claiming _ fires | .firing fires => fires.flatMap DatasetFire.claims
  | .unclaiming workflowName advanced fires =>
      advanced.map (fun moved => (workflowName, moved)) ++ fires.flatMap DatasetFire.claims

def TriggerSweep.groups : TriggerSweep → List (String × List TriggerSub)
  | .claiming left _ => left
  | .firing _ | .unclaiming .. => []

/-- Whether each subscription of a group was read at an update that is recorded, where it has
one.
-/
def DatasetDb.Recorded (db : DatasetDb) (subs : List TriggerSub) : Prop :=
  ∀ sub ∈ subs, 0 < sub.maxId → ∃ event ∈ db.events, event.1.uri = sub.uri ∧ event.2 = sub.maxId

/-- What holds of the sweeps: each move they may hand back is held, and is one sweep's, once;
what they have read is recorded.
-/
structure DatasetWorld.Fair (world : DatasetWorld) : Prop where
  db
    : world.db.Fair world.held world.opened
  owned
    : ∀ scheduler, ∀ claim ∈ (world.sweeps scheduler).claims, claim ∈ world.held
  once
    : ∀ scheduler, (world.sweeps scheduler).claims.Nodup
  parted
    : ∀ scheduler other claim, claim ∈ (world.sweeps scheduler).claims
      → claim ∈ (world.sweeps other).claims → scheduler = other
  recorded
    : ∀ scheduler, ∀ group ∈ (world.sweeps scheduler).groups, world.db.Recorded group.2

namespace DatasetWorld.Fair

variable {world : DatasetWorld}

theorem init
    : DatasetWorld.init.Fair where
  db :=
    { below := fun _ _ stood => nomatch stood
      reached := fun _ among => nomatch among
      passed := fun _ among => nomatch among
      apart := .nil
      taken := fun _ stood => nomatch stood }
  owned _ _ among := nomatch among
  once _ := .nil
  parted _ _ _ among := nomatch among
  recorded _ _ among := nomatch among

theorem withDb (fair : world.Fair) {db : DatasetDb} {opened : String × String → Nat}
    (kept : db.Fair world.held opened) (grown : world.db.events ⊆ db.events)
    : DatasetWorld.Fair { world with db, opened } where
  db := kept
  owned := fair.owned
  once := fair.once
  parted := fair.parted
  recorded scheduler group among sub inside some := by
    obtain ⟨event, old, facts⟩ := fair.recorded scheduler group among sub inside some
    exact ⟨event, grown old, facts⟩

/-- One sweep moves on, and the tables and the moves held with it: the moves it may hand back
were its own or not held before, and those of the others stay held.
-/
theorem sweepTo (fair : world.Fair) {scheduler : Nat} {sweep : TriggerSweep} {db : DatasetDb}
    {held : List (String × Advance)} (kept : db.Fair held world.opened)
    (grown : world.db.events ⊆ db.events)
    (owned : ∀ claim ∈ sweep.claims, claim ∈ held
      ∧ (claim ∈ (world.sweeps scheduler).claims ∨ claim ∉ world.held))
    (once : sweep.claims.Nodup)
    (others : ∀ other, other ≠ scheduler → ∀ claim ∈ (world.sweeps other).claims, claim ∈ held)
    (recorded : ∀ group ∈ sweep.groups, world.db.Recorded group.2)
    : DatasetWorld.Fair { world.sweepTo scheduler sweep with db, held } := by
  have apart {other : Nat} (differ : other ≠ scheduler) {claim : String × Advance}
      (theirs : claim ∈ (world.sweeps other).claims) : claim ∉ sweep.claims := by
    intro mine
    rcases (owned claim mine).2 with before | fresh
    · exact differ (fair.parted _ _ claim theirs before)
    · exact fresh (fair.owned other claim theirs)
  have swept (other : Nat)
      : Function.update world.sweeps scheduler sweep other
        = if other = scheduler then sweep else world.sweeps other :=
    Function.update_apply ..
  refine ⟨kept, ?_, ?_, ?_, ?_⟩
  · intro other claim among
    simp only [DatasetWorld.sweepTo, swept] at among
    split at among
    · exact (owned claim among).1
    next differ => exact others other differ claim among
  · intro other
    simp only [DatasetWorld.sweepTo, swept]
    split
    · exact once
    · exact fair.once other
  · intro first second claim among among'
    simp only [DatasetWorld.sweepTo, swept] at among among'
    split at among
    next same =>
      split at among'
      next same' => exact same.trans same'.symm
      next differ => exact absurd among (apart differ among')
    next differ =>
      split at among'
      · exact absurd among' (apart differ among)
      · exact fair.parted first second claim among among'
  · intro other group among sub inside some
    have old : ∃ event ∈ world.db.events, event.1.uri = sub.uri ∧ event.2 = sub.maxId := by
      simp only [DatasetWorld.sweepTo, swept] at among
      split at among
      · exact recorded group among sub inside some
      · exact fair.recorded other group among sub inside some
    obtain ⟨event, old, facts⟩ := old
    exact ⟨event, grown old, facts⟩

theorem sweepOn (fair : world.Fair) {scheduler : Nat} {sweep : TriggerSweep}
    (fewer : sweep.claims.Sublist (world.sweeps scheduler).claims)
    (recorded : ∀ group ∈ sweep.groups, world.db.Recorded group.2)
    : (world.sweepTo scheduler sweep).Fair := by
  refine fair.sweepTo fair.db (List.Subset.refl _) ?_ (fewer.nodup (fair.once scheduler))
    (fun other _ => fair.owned other) recorded
  intro claim among
  have old := fewer.subset among
  exact ⟨fair.owned scheduler claim old, Or.inl old⟩

theorem sync (fair : world.Fair) (workflowName : String) (uris : List String) (mode : String)
    : let after := syncDatasetTriggers world.db workflowName uris mode
      DatasetWorld.Fair { world with db := after, opened := world.openedBy after } := by
  obtain ⟨triggers, done, reads⟩ := syncDatasetTriggers_spec world.db workflowName uris mode
  dsimp only
  rw [done]
  refine fair.withDb (fair.db.resubscribe ?_) (List.Subset.refl _)
  intro key cursor stood
  obtain ⟨trigger, found, -⟩ := Option.map_eq_some_iff.mp stood
  rcases reads key cursor stood with old | ⟨absent, mark⟩
  · obtain ⟨before, present, -⟩ := Option.map_eq_some_iff.mp old
    refine Or.inl ⟨old, ?_⟩
    simp [DatasetWorld.openedBy, present]
  · have none : world.db.triggers.get? key = none := Option.map_eq_none_iff.mp absent
    refine Or.inr ⟨mark, ?_⟩
    unfold DatasetWorld.openedBy
    rw [none, found]
    rfl

theorem drop (fair : world.Fair) (cond : DatasetTrigger → Prop) [DecidablePred cond]
    : (world.withDb (world.db.withTriggers (world.db.triggers.delete cond))).Fair :=
  fair.withDb (fair.db.resubscribe (fun _ _ stood => Or.inl ⟨DatasetDb.cursor?_delete stood, rfl⟩))
    (List.Subset.refl _)

theorem record (fair : world.Fair) {store : Db} {more : List DatasetEvent}
    (grown : store.datasetEvents = world.db.store.datasetEvents ++ more)
    : (world.withDb ⟨store, world.db.triggers⟩).Fair :=
  fair.withDb (fair.db.record grown) (DatasetDb.events_append grown)

theorem recorded_read {name : String} {subs : List TriggerSub} {db : DatasetDb}
    (group : (name, subs) ∈ byWorkflow db.readTriggers)
    : db.Recorded subs := by
  intro sub inside some
  obtain ⟨trigger, -, -, rfl⟩ := (DatasetDb.mem_group group sub).mp inside
  exact DatasetDb.exists_event_of_highWater some

theorem claim (fair : world.Fair) {scheduler : Nat} {workflowName : String}
    {subs : List TriggerSub} {left : List (String × List TriggerSub)} {fires : List DatasetFire}
    (sweep : world.sweeps scheduler = .claiming ((workflowName, subs) :: left) fires)
    {db : DatasetDb} {fire : DatasetFire}
    (done : claimGroup world.db workflowName subs = some (db, fire))
    : DatasetWorld.Fair { world.sweepTo scheduler (.claiming left (fires ++ [fire])) with
        db, held := world.held ++ fire.advanced.map (fun moved => (workflowName, moved)) } := by
  obtain ⟨fresh, rfl, -, advanced, workflow, moves, -⟩ := claimGroup_spec done
  have read : world.db.Recorded subs :=
    fair.recorded scheduler (workflowName, subs) (by simp [sweep, TriggerSweep.groups])
  have newer : ∀ sub ∈ subs.filter TriggerSub.fresh,
      sub.fresh ∧ sub.maxId ≤ world.db.highWater sub.uri := by
    intro sub among
    obtain ⟨inside, fresh⟩ := List.mem_filter.mp among
    have some : sub.cursor < sub.maxId := of_decide_eq_true fresh
    obtain ⟨event, recorded, dataset, id⟩ := read sub inside (by omega)
    refine ⟨fresh, ?_⟩
    rw [← id, ← dataset]
    exact DatasetDb.le_highWater recorded
  have held : (subs.filter TriggerSub.fresh).map (fun sub => (workflowName, sub.advance))
      = fire.advanced.map (fun moved => (workflowName, moved)) := by
    simp [moves]
  have kept := fair.db.advanceEach advanced newer
  rw [held] at kept
  have claims : fire.claims = fire.advanced.map (fun moved => (workflowName, moved)) := by
    simp [DatasetFire.claims, workflow]
  have before : (world.sweeps scheduler).claims = fires.flatMap DatasetFire.claims := by
    simp [sweep, TriggerSweep.claims]
  have after : (TriggerSweep.claiming left (fires ++ [fire])).claims
      = (world.sweeps scheduler).claims
        ++ fire.advanced.map (fun moved => (workflowName, moved)) := by
    rw [before]
    simp [TriggerSweep.claims, claims]
  obtain ⟨-, distinct, apart⟩ := List.nodup_append.mp kept.nodup
  have unheld : ∀ claim ∈ fire.advanced.map (fun moved => (workflowName, moved)),
      claim ∉ world.held :=
    fun claim new old => apart claim old claim new rfl
  refine fair.sweepTo kept ?_ ?_ ?_ ?_ ?_
  · unfold DatasetDb.events
    rw [DatasetDb.store_advanceEach advanced]
    exact List.Subset.refl _
  · rw [after]
    intro claim among
    rcases List.mem_append.mp among with old | new
    · exact ⟨List.mem_append_left _ (fair.owned scheduler claim old), Or.inl old⟩
    · exact ⟨List.mem_append_right _ new, Or.inr (unheld claim new)⟩
  · rw [after]
    refine List.nodup_append.mpr ⟨fair.once scheduler, distinct, ?_⟩
    rintro claim old _ new rfl
    exact unheld claim new (fair.owned scheduler claim old)
  · exact fun other _ claim among => List.mem_append_left _ (fair.owned other claim among)
  · intro group later
    exact fair.recorded scheduler group (by
      rw [sweep]
      exact List.mem_cons_of_mem _ later)

theorem handBack (fair : world.Fair) {scheduler : Nat} {workflowName : String} {moved : Advance}
    {rest : List Advance} {fires : List DatasetFire}
    (sweep : world.sweeps scheduler = .unclaiming workflowName (moved :: rest) fires)
    : DatasetWorld.Fair { world.sweepTo scheduler (.unclaiming workflowName rest fires) with
        db := world.db.moveCursor workflowName moved.uri moved.new moved.prev
        held := world.held.erase (workflowName, moved) } := by
  have claims : (world.sweeps scheduler).claims
      = (workflowName, moved) :: (TriggerSweep.unclaiming workflowName rest fires).claims := by
    simp [sweep, TriggerSweep.claims]
  have mine : (workflowName, moved) ∈ (world.sweeps scheduler).claims := by
    rw [claims]
    exact List.mem_cons_self
  have member := fair.owned scheduler _ mine
  have once := fair.once scheduler
  rw [claims] at once
  obtain ⟨gone, once⟩ := List.nodup_cons.mp once
  refine fair.sweepTo (fair.db.handBack member) (List.Subset.refl _) ?_ once ?_ nofun
  · intro claim among
    have old : claim ∈ (world.sweeps scheduler).claims := by
      rw [claims]
      exact List.mem_cons_of_mem _ among
    refine ⟨fair.db.nodup.mem_erase_iff.mpr ⟨?_, fair.owned scheduler claim old⟩, Or.inl old⟩
    rintro rfl
    exact gone among
  · intro other differ claim theirs
    refine fair.db.nodup.mem_erase_iff.mpr ⟨?_, fair.owned other claim theirs⟩
    rintro rfl
    exact differ (fair.parted other scheduler _ theirs mine)

theorem step (fair : world.Fair) {op : DatasetOp} {after : DatasetWorld}
    (committed : op.step world = some after)
    : after.Fair := by
  cases op with
  | recordDatasetUpdates id uris | recordExternalDatasetEvent uri =>
      obtain rfl := Option.some.inj committed
      exact fair.record rfl
  | syncDatasetTriggers workflowName uris mode =>
      obtain rfl := Option.some.inj committed
      exact fair.sync workflowName uris mode
  | pruneDatasetTriggers registered | clearDatasetTriggers names =>
      obtain rfl := Option.some.inj committed
      exact fair.drop _
  | readTriggers scheduler =>
      simp only [DatasetOp.step] at committed
      split at committed
      next sweep =>
        obtain rfl := Option.some.inj committed
        exact fair.sweepOn (by simp [TriggerSweep.claims]) (fun _ group => recorded_read group)
      next => cases committed
  | claimNext scheduler =>
      simp only [DatasetOp.step] at committed
      split at committed
      next fires sweep =>
        obtain rfl := Option.some.inj committed
        exact fair.sweepOn (by simp [sweep, TriggerSweep.claims]) nofun
      next workflowName subs left fires sweep =>
        split at committed
        next =>
          obtain rfl := Option.some.inj committed
          refine fair.sweepOn (by simp [sweep, TriggerSweep.claims]) ?_
          intro group later
          exact fair.recorded scheduler group (by
            rw [sweep]
            exact List.mem_cons_of_mem _ later)
        next db fire done =>
          obtain rfl := Option.some.inj committed
          exact fair.claim sweep done
      next => cases committed
  | createRun scheduler | skipFire scheduler =>
      simp only [DatasetOp.step] at committed
      split at committed
      next fire fires sweep =>
        obtain rfl := Option.some.inj committed
        exact fair.sweepOn (by simp [sweep, TriggerSweep.claims]) nofun
      next => cases committed
  | refuseFire scheduler =>
      simp only [DatasetOp.step] at committed
      split at committed
      next fire fires sweep =>
        obtain rfl := Option.some.inj committed
        exact fair.sweepOn (by simp [sweep, TriggerSweep.claims, DatasetFire.claims]) nofun
      next => cases committed
  | unclaimNext scheduler =>
      simp only [DatasetOp.step] at committed
      split at committed
      next workflowName moved rest fires sweep =>
        obtain rfl := Option.some.inj committed
        exact fair.handBack sweep
      next workflowName fires sweep =>
        obtain rfl := Option.some.inj committed
        exact fair.sweepOn (by simp [sweep, TriggerSweep.claims]) nofun
      next => cases committed

end DatasetWorld.Fair

-- No update lost, none taken twice

/-- Whether a claim's move takes an update for a workflow. -/
def Takes (claim : String × Advance) (name : String) (event : DatasetEvent × Nat) : Prop :=
  claim.1 = name ∧ claim.2.uri = event.1.uri
    ∧ claim.2.prev < event.2 ∧ event.2 ≤ claim.2.new

instance (claim : String × Advance) (name : String) (event : DatasetEvent × Nat)
    : Decidable (Takes claim name event) :=
  inferInstanceAs (Decidable (_ ∧ _))

/-- Whether an update is recorded, and past the cursor of a workflow's subscription. -/
def DatasetDb.Pending (db : DatasetDb) (name : String) (event : DatasetEvent × Nat) : Prop :=
  event ∈ db.events ∧ ∃ cursor ∈ db.cursor? (name, event.1.uri), cursor < event.2

instance (db : DatasetDb) (name : String) (event : DatasetEvent × Nat)
    : Decidable (db.Pending name event) :=
  inferInstanceAs (Decidable (_ ∧ _))

/-- No update is taken by two moves held, and each update since its subscription opened is
pending or taken, or one of its dataset that is not older is.
-/
structure DatasetWorld.Kept (world : DatasetWorld) : Prop where
  once
    : world.held.Pairwise (fun first second => ∀ name event,
        ¬ (Takes first name event ∧ Takes second name event))
  lasting
    : ∀ name, ∀ event ∈ world.db.events, (world.db.cursor? (name, event.1.uri)).isSome
      → world.opened (name, event.1.uri) < event.2
      → ∃ later ∈ world.db.events, later.1.uri = event.1.uri ∧ event.2 ≤ later.2
          ∧ (world.db.Pending name later ∨ ∃ claim ∈ world.held, Takes claim name later)

/-- A fire of a group of subscriptions takes updates that are recorded, at least one, and in
`all` mode one of each subscription.
-/
def DatasetDb.Due (db : DatasetDb) (subs : List TriggerSub) (fire : DatasetFire) : Prop :=
  fire.advanced ≠ []
    ∧ (∀ moved ∈ fire.advanced, moved.prev < moved.new
        ∧ ∃ event ∈ db.events, event.1.uri = moved.uri ∧ event.2 = moved.new)
    ∧ ((∃ sub ∈ subs, sub.mode = "all") → fire.advanced = subs.map TriggerSub.advance)

/-- What was pending stays so, and with it exactly what a move took is. -/
def Restores (claim : String × Advance) (before after : DatasetDb) : Prop :=
  ∀ name event, after.Pending name event
    ↔ before.Pending name event ∨ event ∈ before.events ∧ Takes claim name event

theorem DatasetWorld.Fair.kept {world : DatasetWorld} (fair : world.Fair)
    : world.Kept where
  once := by
    refine fair.db.apart.imp ?_
    rintro first second apart name event ⟨⟨rfl, dataset, after, upto⟩, ⟨same, dataset', after', upto'⟩⟩
    rcases apart same.symm (dataset.trans dataset'.symm) with behind | behind <;> omega
  lasting name event among subscribed newer := by
    obtain ⟨cursor, stood⟩ := Option.isSome_iff_exists.mp subscribed
    have mark := DatasetDb.le_highWater among
    have some : 0 < world.db.highWater event.1.uri := by omega
    obtain ⟨last, recorded, dataset, id⟩ := DatasetDb.exists_event_of_highWater some
    refine ⟨last, recorded, dataset, by omega, ?_⟩
    rcases Nat.lt_or_ge cursor last.2 with ahead | there
    · left
      refine ⟨recorded, cursor, ?_, ahead⟩
      rw [dataset]
      exact stood
    · right
      have below : cursor ≤ world.db.highWater event.1.uri := fair.db.below _ _ stood
      obtain rfl : cursor = world.db.highWater event.1.uri := by omega
      obtain ⟨moved, held, same, new⟩ := fair.db.taken _ stood (by
        dsimp only
        omega)
      have forward : moved.prev < moved.new := (fair.db.reached _ held).1
      refine ⟨_, held, rfl, same.trans dataset.symm, ?_, ?_⟩ <;> dsimp only at * <;> omega

theorem DatasetDb.restores {db : DatasetDb} {name : String} {moved : Advance}
    (forward : moved.prev < moved.new) (stands : db.cursor? (name, moved.uri) = some moved.new)
    : Restores (name, moved) db (db.moveCursor name moved.uri moved.new moved.prev) := by
  intro other event
  unfold Pending Takes
  rw [cursor?_moveCursor]
  by_cases here : (other, event.1.uri) = (name, moved.uri)
  · obtain ⟨rfl, dataset⟩ := Prod.mk.inj here
    rw [dataset, stands, if_pos ⟨rfl, rfl⟩]
    simp only [Option.mem_some_iff, exists_eq_left', true_and]
    constructor
    · rintro ⟨among, after⟩
      rcases Nat.lt_or_ge moved.new event.2 with past | upto
      · exact Or.inl ⟨among, past⟩
      · exact Or.inr ⟨among, after, upto⟩
    · rintro (⟨among, past⟩ | ⟨among, after, -⟩)
      · exact ⟨among, forward.trans past⟩
      · exact ⟨among, after⟩
  · rw [if_neg (fun move => here move.1)]
    constructor
    · exact fun pending => Or.inl pending
    · rintro (pending | ⟨-, rfl, dataset, -⟩)
      · exact pending
      · exact absurd (by rw [dataset]) here

theorem DatasetDb.moveCursor_of_ne {db : DatasetDb} {name uri : String} {old new : Nat}
    (elsewhere : db.cursor? (name, uri) ≠ some old)
    : db.moveCursor name uri old new = db := by
  have unmet : ∀ trigger ∈ db.triggers, ¬ trigger.standsAt name uri old := by
    rintro trigger among ⟨rfl, rfl, rfl⟩
    have read : db.triggers.get? (Keyed.key trigger) = some trigger := Table.get?_of_mem among
    exact elsewhere (congrArg (Option.map DatasetTrigger.cursor) read)
  unfold moveCursor
  rw [Table.update_none unmet]
  rfl

theorem DatasetWorld.Fair.due {world : DatasetWorld} (fair : world.Fair) {scheduler : Nat}
    {workflowName : String} {subs : List TriggerSub} {left : List (String × List TriggerSub)}
    {fires : List DatasetFire}
    (sweep : world.sweeps scheduler = .claiming ((workflowName, subs) :: left) fires)
    {db : DatasetDb} {fire : DatasetFire}
    (done : claimGroup world.db workflowName subs = some (db, fire))
    : world.db.Due subs fire := by
  obtain ⟨fresh, rfl, some, -, -, moves, all⟩ := claimGroup_spec done
  refine ⟨by simpa [moves] using some, ?_, ?_⟩
  · intro moved among
    rw [moves] at among
    obtain ⟨sub, inside, rfl⟩ := List.mem_map.mp among
    obtain ⟨inside, fresh⟩ := List.mem_filter.mp inside
    have forward : sub.cursor < sub.maxId := of_decide_eq_true fresh
    have read : world.db.Recorded subs :=
      fair.recorded scheduler (workflowName, subs) (by simp [sweep, TriggerSweep.groups])
    exact ⟨forward, read sub inside (by omega)⟩
  · intro mode
    rw [moves, all mode]

/-- What the commits of a run do to the triggers: a reader reads all subscriptions, a claim takes
nothing or fires where it is due, and handing back a move restores what it took if its cursor
still stands there and changes no table if not.
-/
structure TriggerCommit (commit : Commit DatasetWorld DatasetOp) : Prop where
  reads
    : ∀ scheduler, commit.label = .readTriggers scheduler
      → ∃ groups, commit.after.sweeps scheduler = .claiming groups []
          ∧ ∀ name subs, (name, subs) ∈ groups → ∀ sub, sub ∈ subs
              ↔ ∃ trigger ∈ commit.before.db.triggers,
                  trigger.workflowName = name ∧ commit.before.db.subOf trigger = sub
  claims
    : ∀ scheduler name subs left fires, commit.label = .claimNext scheduler
      → commit.before.sweeps scheduler = .claiming ((name, subs) :: left) fires
      → (commit.after.sweeps scheduler = .claiming left fires
            ∧ commit.after.db = commit.before.db ∧ commit.after.held = commit.before.held)
          ∨ ∃ fire, commit.after.sweeps scheduler = .claiming left (fires ++ [fire])
              ∧ commit.after.held = commit.before.held ++ fire.claims
              ∧ commit.before.db.Due subs fire
  handsBack
    : ∀ scheduler name moved rest fires, commit.label = .unclaimNext scheduler
      → commit.before.sweeps scheduler = .unclaiming name (moved :: rest) fires
      → commit.after.held = commit.before.held.erase (name, moved)
          ∧ if commit.before.db.cursor? (name, moved.uri) = some moved.new
            then Restores (name, moved) commit.before.db commit.after.db
            else commit.after.db = commit.before.db

theorem DatasetWorld.Fair.commit {world : DatasetWorld} (fair : world.Fair) {op : DatasetOp}
    {after : DatasetWorld} (done : op.step world = some after)
    : TriggerCommit ⟨op, world, after⟩ where
  reads := by
    rintro scheduler rfl
    simp only [DatasetOp.step] at done
    split at done
    · obtain rfl := Option.some.inj done
      refine ⟨_, Function.update_self .., ?_⟩
      exact fun name subs group sub => DatasetDb.mem_group group sub
    · cases done
  claims := by
    rintro scheduler name subs left fires rfl sweep
    dsimp only at sweep
    simp only [DatasetOp.step, sweep] at done
    split at done
    · obtain rfl := Option.some.inj done
      exact Or.inl ⟨Function.update_self .., rfl, rfl⟩
    next db fire claimed =>
      obtain rfl := Option.some.inj done
      obtain ⟨-, -, -, -, workflow, -, -⟩ := claimGroup_spec claimed
      refine Or.inr ⟨fire, Function.update_self .., ?_, fair.due sweep claimed⟩
      simp [DatasetFire.claims, workflow]
  handsBack := by
    rintro scheduler name moved rest fires rfl sweep
    dsimp only at sweep
    simp only [DatasetOp.step, sweep] at done
    obtain rfl := Option.some.inj done
    refine ⟨rfl, ?_⟩
    have held := fair.owned scheduler (name, moved) (by simp [sweep, TriggerSweep.claims])
    split
    next stands => exact DatasetDb.restores (fair.db.reached _ held).1 stands
    next elsewhere => exact DatasetDb.moveCursor_of_ne elsewhere

/-- Over every run of producers and any number of schedulers, no update is taken by two fires of
a trigger, none is lost, and a fire handed back gives back exactly what no later claim has
gone past.
-/
theorem triggers_lose_and_double_nothing {commits : List (Commit DatasetWorld DatasetOp)}
    {world : DatasetWorld}
    (history : datasetStore.History (fun _ _ => True) DatasetWorld.init commits world)
    : world.Kept
        ∧ ∀ commit ∈ commits, commit.before.Kept ∧ commit.after.Kept ∧ TriggerCommit commit := by
  have whole : world.Fair ∧ ∀ commit ∈ commits, commit.before.Fair ∧ commit.after.Fair
      ∧ TriggerCommit commit := by
    refine history.rule .init ?_
    intro op origin fair commit member _ _
    obtain ⟨after, done, rfl⟩ := mem_commitsFrom_toList.mp member
    exact ⟨fair.step done, fair.commit done⟩
  obtain ⟨last, every⟩ := whole
  refine ⟨last.kept, ?_⟩
  intro commit member
  obtain ⟨before, after, facts⟩ := every commit member
  exact ⟨before.kept, after.kept, facts⟩

/-- A report on a lake, whose trigger one scheduler claims; before its run is refused, the lake
is updated again and another scheduler claims the trigger.
-/
def lakeReport : List DatasetOp :=
  [.syncDatasetTriggers "report" ["lake"] "any", .recordExternalDatasetEvent "lake",
    .readTriggers 0, .claimNext 0, .claimNext 0, .recordExternalDatasetEvent "lake",
    .readTriggers 1, .claimNext 1, .refuseFire 0, .unclaimNext 0]

/-- No update of the lake is lost to its report, and none taken twice. -/
theorem triggers_lose_and_double_nothing_lakeReport
    : (datasetStore.outcome .init lakeReport).Kept :=
  (triggers_lose_and_double_nothing (.whole .start (by decide))).1

/-- A fire handed back after another claim went past it gives back nothing. -/
theorem not_restores
    : ¬ ∀ (commits : List (Commit DatasetWorld DatasetOp)) (world : DatasetWorld),
        datasetStore.History (fun _ _ => True) DatasetWorld.init commits world
        → ∀ commit ∈ commits, ∀ scheduler name moved rest fires,
            commit.label = .unclaimNext scheduler
            → commit.before.sweeps scheduler = .unclaiming name (moved :: rest) fires
            → Restores (name, moved) commit.before.db commit.after.db := by
  intro holds
  have history : datasetStore.History (fun _ _ => True) .init
      ([] ++ datasetStore.trace .init lakeReport) (datasetStore.outcome .init lakeReport) :=
    .whole .start (by decide)
  let event : DatasetEvent × Nat := (⟨"lake", none, none⟩, 1)
  have member : (datasetStore.trace .init lakeReport).getLast (by decide)
      ∈ datasetStore.trace .init lakeReport :=
    List.getLast_mem _
  have restored := (holds _ _ history _ member 0 "report" ⟨"lake", 0, 1⟩ [] [] (by decide)
    (by decide) "report" event).mpr (Or.inr (by decide))
  revert restored
  decide

end Dagron.Store
