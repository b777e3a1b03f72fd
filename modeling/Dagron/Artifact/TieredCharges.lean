import Dagron.Artifact.TieredSteps
import Mathlib.Algebra.GroupWithZero.Nat

/-! What a drain moves is charged to the day, is within its budget, and goes in the order in which it came,
as long as no put comes between an upload and its record.
-/

namespace Dagron.Artifact

open Dagron.Library

-- What is asked

/-- The bytes that came to the remote tier on a day's account. -/
def uplinkedOn (uplinked : List (Nat × Nat)) (day : Nat) : Nat :=
  ((uplinked.filter fun moved => moved.1 = day).map Prod.snd).sum

/-- Whether a ledger counts all bytes of its day, and that is the last day of any. -/
structure Ledger.Charged (ledger : Ledger) (uplinked : List (Nat × Nat)) : Prop where
  counted
    : uplinkedOn uplinked ledger.day ≤ ledger.dayBytes
  latest
    : ∀ moved ∈ uplinked, moved.1 ≤ ledger.day

/-- Whether a step of a drain moves an entry: it begins its upload, or makes it an alias. -/
inductive Moved (env : TierEnv) (commit : Commit Tiered TierOp) (cur : Entry) : Prop
  | starts {outcome : Outcome} {now : Nat} {order : List Entry} (label : commit.label = .next outcome)
      (at_ : commit.after.drain = some ⟨now, .opening cur order⟩)
  | aliased {outcome : Outcome} {rel : String} {ledger : Ledger} {entry : Entry} {of_ : ArtifactKey}
      (label : commit.label = .next outcome)
      (was : (commit.before.ledger.held env.codec).entries.lookup rel = some cur)
      (pending : cur.state = .pending) (has : commit.after.ledger.memory = some ledger)
      (is : ledger.entries.lookup rel = some entry) (alias_ : entry.state = .alias_ of_)

/-- Whether what a step moves may be: the bytes of the day and of the upload that begins are within the
budget, and each entry that came earlier and still waits is more than the budget of a day.
-/
structure Fair (env : TierEnv) (commit : Commit Tiered TierOp) : Prop where
  budget
    : ∀ outcome now upload order, commit.label = .next outcome →
      commit.after.drain = some ⟨now, .opening upload order⟩ → ∀ cap ∈ env.bytesPerDay,
      uplinkedOn commit.before.uplinked (now / secsPerDay) + upload.bytes ≤ cap
  first
    : ∀ cur, Moved env commit cur → ∀ rel entry,
      (commit.before.ledger.held env.codec).entries.lookup rel = some entry → entry.state = .pending →
      ¬ Ledger.earlier cur entry → env.oversize entry.bytes

-- Steps at which it holds

namespace Tiered

def left (world : Tiered) : List Entry :=
  match world.drain with
  | some ⟨_, .moving order⟩ | some ⟨_, .opening _ order⟩ | some ⟨_, .sending _ _ order⟩
  | some ⟨_, .recording _ _ order⟩ => order
  | _ => []

def wanted (world : Tiered) : Option Entry :=
  match world.drain with
  | some ⟨_, .moving (want :: _)⟩ => some want
  | _ => none

/-- What was sent and is not recorded, and of which entry. -/
def recording (world : Tiered) : Option (Entry × Bytes) :=
  match world.drain with
  | some ⟨_, .recording upload content _⟩ => some (upload, content)
  | _ => none

/-- Whether the process can end: no bytes are unrecorded, and the file has the day's bytes. -/
def Recorded (env : TierEnv) (world : Tiered) : Prop :=
  world.unrecorded = []
    ∧ ∀ ledger ∈ world.ledger.memory,
      (loadLedger env.codec world.ledger.file).day = ledger.day
        ∧ (loadLedger env.codec world.ledger.file).dayBytes = ledger.dayBytes

/-- Steps at which every byte is charged: a line is not cut just before its end; the process does not end
where bytes are unrecorded; the clock does not go back to a day before the ledger's, nor a put to before what
the drain has not come to; an entry is not put again as it is uploaded, nor with other bytes and then again
with those that it had; what the remote tier takes it does not report as an error; the record of an upload is
all written; and no sum exceeds 64 bits.
-/
def SteadyCharges (env : TierEnv) (op : TierOp) (world : Tiered) : Prop :=
  Uncut env op world
    ∧ match op with
      | .restart => world.Recorded env
      | .ledgerPut _ at_ (.crashed _) => world.Recorded env ∧ ∀ want ∈ world.left, want.at_ ≤ at_
      | .ledgerPut _ at_ _ => ∀ want ∈ world.left, want.at_ ≤ at_
      | .mark outcome =>
          (∀ ledger ∈ world.ledger.memory, ∀ drain ∈ world.drain, ledger.day ≤ drain.today)
            ∧ ((outcome matches .crashed _) → world.Recorded env)
      | .next outcome =>
          (∀ ledger ∈ world.ledger.memory, ∀ want ∈ world.wanted,
            ∀ cur ∈ ledger.entries.lookup want.key.relPath, cur.state = .pending → cur.sha = want.sha →
            cur = want ∧ ∀ _ ∈ env.bytesPerDay, ledger.dayBytes + cur.bytes ≤ maxU64)
            ∧ ((outcome matches .crashed _) → world.Recorded env)
      | .open_ _ outcome => (outcome matches .crashed _) → world.Recorded env
      | .send sent => sent ≠ .refused true
      | .record outcome =>
          (∀ ledger ∈ world.ledger.memory, ∀ sent ∈ world.recording,
            ledger.still sent.1 ∧ ledger.dayBytes + sent.2.length ≤ maxU64)
            ∧ ∀ turn ∈ world.turn env op, world.ledger.Lands env.codec turn.records outcome
      | _ => True

end Tiered

-- The day's bytes

namespace Ledger

variable {ledger : Ledger} {uplinked : List (Nat × Nat)}

def OfEntry : Record → Prop
  | .day _ _ => False
  | _ => True

theorem day_applyAll {records : List Record} (entries : ∀ record ∈ records, OfEntry record)
    : (ledger.applyAll records).day = ledger.day ∧ (ledger.applyAll records).dayBytes = ledger.dayBytes := by
  induction records generalizing ledger with
  | nil => exact ⟨rfl, rfl⟩
  | cons record rest ih =>
      have here := entries record List.mem_cons_self
      obtain ⟨day, bytes⟩ := @ih (ledger.apply record) fun other listed =>
        entries other (List.mem_cons_of_mem _ listed)
      have kept := ledger.apply_day record
      cases record with
      | day => exact absurd here id
      | pending | done | uploadedBySha | forget => exact ⟨day.trans kept.1, bytes.trans kept.2⟩

theorem Charged.of_day (charged : ledger.Charged uplinked) {other : Ledger} (day : other.day = ledger.day)
    (bytes : other.dayBytes = ledger.dayBytes)
    : other.Charged uplinked :=
  ⟨by rw [day, bytes]; exact charged.counted, by rw [day]; exact charged.latest⟩

theorem Charged.applyAll (charged : ledger.Charged uplinked) {records : List Record}
    (entries : ∀ record ∈ records, OfEntry record)
    : (ledger.applyAll records).Charged uplinked :=
  charged.of_day (day_applyAll entries).1 (day_applyAll entries).2

theorem Charged.newDay (charged : ledger.Charged uplinked) {today : Nat} (later : ledger.day < today)
    (records : List Record)
    : (ledger.applyAll (records ++ [.day today 0])).Charged uplinked := by
  have before (moved : Nat × Nat) (listed : moved ∈ uplinked) : moved.1 < today :=
    Nat.lt_of_le_of_lt (charged.latest moved listed) later
  rw [applyAll_append]
  refine ⟨?_, fun moved listed => (before moved listed).le⟩
  have none_ : uplinked.filter (fun moved => moved.1 = today) = [] := by
    rw [List.filter_eq_nil_iff]
    intro moved listed
    simpa using (before moved listed).ne
  exact Nat.le_of_eq (by rw [uplinkedOn]; exact congrArg (fun moved => (moved.map Prod.snd).sum) none_)

theorem Charged.of_prefix (charged : ledger.Charged uplinked) {today : Nat} (later : ledger.day < today)
    {records part : List Record} (entries : ∀ record ∈ records, OfEntry record)
    (begins : part <+: records ++ [.day today 0])
    : (ledger.applyAll part).Charged uplinked := by
  obtain rfl | within := List.prefix_concat_iff.mp begins
  · exact charged.newDay later records
  · exact charged.applyAll fun record listed => entries record (within.subset listed)

theorem uplinkedOn_append (today bytes : Nat)
    : uplinkedOn (uplinked ++ [(today, bytes)]) today = uplinkedOn uplinked today + bytes := by
  simp [uplinkedOn]

theorem Charged.recorded (charged : ledger.Charged uplinked) {today : Nat} (same : ledger.day = today)
    {bytes : Nat} (fits : ledger.dayBytes + bytes ≤ maxU64) (key : ArtifactKey) (sha remote : String)
    (size now : Nat)
    : (ledger.applyAll [.done key sha size now remote, .day today (saturatingAdd ledger.dayBytes bytes)]).Charged
        (uplinked ++ [(today, bytes)]) := by
  subst same
  refine ⟨?_, fun moved listed => ?_⟩
  · have sum : uplinkedOn (uplinked ++ [(ledger.day, bytes)]) ledger.day ≤ ledger.dayBytes + bytes := by
      rw [uplinkedOn_append]
      exact Nat.add_le_add_right charged.counted _
    exact sum.trans (Nat.le_min.mpr ⟨le_rfl, fits⟩)
  · obtain before | last := List.mem_append.mp listed
    · exact charged.latest moved before
    · rw [List.mem_singleton.mp last]
      exact le_rfl

end Ledger

-- The order

open Ledger

/-- What is left of a drain's order: it is in order, and every entry that waits is more than the budget, or
left in the order, or at the path that is uploaded, or came no earlier than what is left.
-/
structure InTurn (env : TierEnv) (ledger : Ledger) (upload : Option Entry) (order : List Entry) : Prop where
  sorted
    : order.Pairwise earlier
  below
    : ∀ want ∈ order, want.seq < ledger.nextSeq
  waiting
    : ∀ rel entry, ledger.entries.lookup rel = some entry → entry.state = .pending →
      env.oversize entry.bytes ∨ entry ∈ order ∨ (∃ now ∈ upload, now.key.relPath = rel)
        ∨ ∀ want ∈ order, earlier want entry

namespace InTurn

variable {env : TierEnv} {ledger : Ledger} {upload : Option Entry} {order : List Entry}

theorem nextSeq_apply (record : Record)
    : ledger.nextSeq ≤ (ledger.apply record).nextSeq := by
  cases record with
  | pending | done | uploadedBySha => simp [Ledger.apply, Ledger.insert]
  | day | forget => simp [Ledger.apply]

/-- A record keeps the order, where what it puts in the queue is no earlier than what is left. -/
theorem apply (inTurn : InTurn env ledger upload order) (record : Record)
    (late : ∀ key sha bytes at_, record = .pending key sha bytes at_ → ∀ want ∈ order, want.at_ ≤ at_)
    : InTurn env (ledger.apply record) upload order := by
  refine { inTurn with
    below := fun want listed => (inTurn.below want listed).trans_le (nextSeq_apply record)
    waiting := fun rel entry has pending => ?_ }
  rw [lookup_apply] at has
  cases record with
  | day => exact inTurn.waiting rel entry has pending
  | forget key =>
      simp only [madeOf] at has
      split_ifs at has
      exact inTurn.waiting rel entry has pending
  | done key sha bytes at_ remote | uploadedBySha key sha bytes at_ of_ =>
      simp only [madeOf] at has
      split_ifs at has
      · obtain rfl := Option.some.inj has
        cases pending
      · exact inTurn.waiting rel entry has pending
  | pending key sha bytes at_ =>
      simp only [madeOf] at has
      split_ifs at has
      · obtain rfl := Option.some.inj has
        refine Or.inr (Or.inr (Or.inr fun want listed => ?_))
        have before := late key sha bytes at_ rfl want listed
        have number := inTurn.below want listed
        exact (Nat.lt_or_eq_of_le before).imp id fun same => ⟨same, number.le⟩
      · exact inTurn.waiting rel entry has pending

/-- The entry that is decided on is no longer in the order, where it does not wait or never can be moved. -/
theorem skip {want : Entry} (inTurn : InTurn env ledger upload (want :: order)) (sound : ledger.Sound)
    (decided : ledger.entries.lookup want.key.relPath = some want → want.state = .pending →
      env.oversize want.bytes)
    : InTurn env ledger upload order := by
  refine ⟨inTurn.sorted.of_cons, fun other listed => inTurn.below other (List.mem_cons_of_mem _ listed),
    fun rel entry has pending => ?_⟩
  obtain oversize | listed | path | later := inTurn.waiting rel entry has pending
  · exact Or.inl oversize
  · obtain rfl | listed := List.mem_cons.mp listed
    · obtain rfl := sound.keyed rel entry has
      exact Or.inl (decided has pending)
    · exact Or.inr (Or.inl listed)
  · exact Or.inr (Or.inr (Or.inl path))
  · exact Or.inr (Or.inr (Or.inr fun other listed => later other (List.mem_cons_of_mem _ listed)))

theorem starts {want cur : Entry} (inTurn : InTurn env ledger none (want :: order)) (sound : ledger.Sound)
    (path : cur.key.relPath = want.key.relPath)
    : InTurn env ledger (some cur) order := by
  refine ⟨inTurn.sorted.of_cons, fun other listed => inTurn.below other (List.mem_cons_of_mem _ listed),
    fun rel entry has pending => ?_⟩
  obtain oversize | listed | ⟨now, none_, -⟩ | later := inTurn.waiting rel entry has pending
  · exact Or.inl oversize
  · obtain rfl | listed := List.mem_cons.mp listed
    · obtain rfl := sound.keyed rel entry has
      exact Or.inr (Or.inr (Or.inl ⟨cur, rfl, path⟩))
    · exact Or.inr (Or.inl listed)
  · exact absurd none_ nofun
  · exact Or.inr (Or.inr (Or.inr fun other listed => later other (List.mem_cons_of_mem _ listed)))

theorem finish {cur : Entry} (inTurn : InTurn env ledger (some cur) order)
    (done : ∀ entry, ledger.entries.lookup cur.key.relPath = some entry → entry.state ≠ .pending)
    : InTurn env ledger none order := by
  refine { inTurn with waiting := fun rel entry has pending => ?_ }
  obtain oversize | listed | ⟨now, ⟨rfl⟩, rfl⟩ | later := inTurn.waiting rel entry has pending
  · exact Or.inl oversize
  · exact Or.inr (Or.inl listed)
  · exact absurd pending (done entry has)
  · exact Or.inr (Or.inr (Or.inr later))

theorem first {want : Entry} (inTurn : InTurn env ledger none (want :: order)) {rel : String} {entry : Entry}
    (has : ledger.entries.lookup rel = some entry) (pending : entry.state = .pending)
    (before : ¬ earlier want entry)
    : env.oversize entry.bytes := by
  obtain oversize | listed | ⟨now, none_, -⟩ | later := inTurn.waiting rel entry has pending
  · exact oversize
  · obtain rfl | listed := List.mem_cons.mp listed
    · exact absurd (Or.inr ⟨rfl, le_rfl⟩) before
    · exact absurd ((List.pairwise_cons.mp inTurn.sorted).1 entry listed) before
  · exact absurd none_ nofun
  · exact absurd (later want List.mem_cons_self) before

theorem pendingInOrder (numbered : ledger.Numbered)
    : InTurn env ledger none ledger.pendingInOrder := by
  have mem (entry : Entry)
      : entry ∈ ledger.pendingInOrder
        ↔ (∃ rel, ledger.entries.lookup rel = some entry) ∧ entry.state = .pending := by
    rw [Ledger.pendingInOrder, (List.perm_insertionSort earlier _).mem_iff, List.mem_filter, List.mem_map]
    simp only [decide_eq_true_eq]
    refine and_congr_left fun _ => ⟨?_, ?_⟩
    · rintro ⟨⟨rel, _⟩, has, rfl⟩
      exact ⟨rel, AList.mem_lookup_iff.mpr has⟩
    · rintro ⟨rel, has⟩
      exact ⟨⟨rel, entry⟩, AList.mem_lookup_iff.mp has, rfl⟩
  have total : Std.Total earlier := ⟨fun first second => by unfold earlier; omega⟩
  have trans : IsTrans Entry earlier := ⟨fun first second third => by unfold earlier; omega⟩
  refine ⟨List.pairwise_insertionSort _ _, fun want listed => ?_, fun rel entry has pending => ?_⟩
  · obtain ⟨⟨rel, has⟩, -⟩ := (mem want).mp listed
    exact numbered rel want has
  · exact Or.inr (Or.inl ((mem entry).mpr ⟨⟨rel, has⟩, pending⟩))

end InTurn

-- Every run

open Tiered

/-- What holds of a drain: what it found are entries; and once it is past the day's record, the ledger's day
is its own, and what is left is in order.
-/
def Draining (env : TierEnv) (ledger : Ledger) (now : Nat) : DrainPhase → Prop
  | .scanning _ records | .stale _ records => ∀ record ∈ records, OfEntry record
  | .ordering => ledger.day = now / secsPerDay
  | .moving order => ledger.day = now / secsPerDay ∧ InTurn env ledger none order
  | .opening upload order | .sending upload _ order | .recording upload _ order =>
      ledger.day = now / secsPerDay ∧ InTurn env ledger (some upload) order

def charges (env : TierEnv) : TierInvariant where
  core ledger world := ledger.Charged world.uplinked
  running ledger world := ∀ drain ∈ world.drain, Draining env ledger drain.now drain.phase
  same same charged := charged.of_day same.day same.dayBytes
  flagged appended suspect running drain is := by
    have draining := running drain is
    obtain ⟨now, phase⟩ := drain
    cases phase with
    | scanning | stale | ordering => exact draining
    | moving | opening | sending | recording => exact ⟨draining.1, { draining.2 with }⟩
  core_ledger _ charged := charged
  running_ledger _ running := running
  core_stops charged := charged
  running_stops none_ := by
    rintro drain is
    exact absurd (none_.symm.trans is) nofun

theorem Draining.put {env : TierEnv} {ledger : Ledger} {now : Nat} {phase : DrainPhase}
    (draining : Draining env ledger now phase) (key : ArtifactKey) (sha : String) (bytes at_ : Nat)
    {world : Tiered} (is : world.drain = some ⟨now, phase⟩) (late : ∀ want ∈ world.left, want.at_ ≤ at_)
    : Draining env (ledger.apply (.pending key sha bytes at_)) now phase := by
  have day := (ledger.apply_day (.pending key sha bytes at_)).1
  simp only [Tiered.left, is] at late
  cases phase with
  | scanning | stale => exact draining
  | ordering => exact day.trans draining
  | moving order | opening upload order | sending upload content order | recording upload content order =>
      refine ⟨day.trans draining.1, draining.2.apply _ ?_⟩
      rintro key sha bytes at_ ⟨rfl⟩
      exact late

variable {env : TierEnv} {world after : Tiered} {op : TierOp} {turn : Turn}

theorem charges_drains (holds : (charges env).Holds env world) (steady : SteadyCharges env op world)
    {ledger : Ledger} {now : Nat} {phase : DrainPhase} (at_ : world.drain = some ⟨now, phase⟩)
    (drains : Drains env world ledger now phase op turn)
    : ((world.ledger.held env.codec).applyAll turn.records).Charged turn.next.uplinked
      ∧ ∀ drain ∈ turn.next.drain,
        Draining env ((world.ledger.held env.codec).applyAll turn.records) drain.now drain.phase := by
  obtain ⟨lines, tail, file⟩ := holds.file
  have charged := holds.core
  have draining := holds.running _ at_
  have sound := file.sound
  have held (has : world.ledger.memory = some ledger) : world.ledger.held env.codec = ledger :=
    LedgerWorld.held_some has
  cases drains with
  | found has | requeued | forgotten =>
      refine ⟨charged, ?_⟩
      rintro _ ⟨rfl⟩
      intro record listed
      obtain before | last := List.mem_append.mp listed
      · exact draining record before
      · rw [List.mem_singleton.mp last]
        trivial
  | unreadable | scanned | opened has | sent =>
      refine ⟨charged, ?_⟩
      rintro _ ⟨rfl⟩
      exact draining
  | marked has today =>
      refine ⟨charged.applyAll draining, ?_⟩
      rintro _ ⟨rfl⟩
      refine (day_applyAll draining).1.trans ?_
      rw [held has]
      exact today
  | newDay has other =>
      have later : ledger.day < now / secsPerDay :=
        Nat.lt_of_le_of_ne (steady.2.1 ledger has _ at_) other
      refine ⟨charged.newDay (held has ▸ later) _, ?_⟩
      rintro _ ⟨rfl⟩
      rw [applyAll_append]
      rfl
  | ordered has =>
      refine ⟨charged, ?_⟩
      rintro _ ⟨rfl⟩
      exact ⟨draining, held has ▸ InTurn.pendingInOrder (held has ▸ holds.numbered)⟩
  | drained | deferred | closed | refused => exact ⟨charged, (by rintro _ ⟨⟩)⟩
  | landed => exact absurd rfl steady.2
  | skipped has other =>
      refine ⟨charged, ?_⟩
      rintro _ ⟨rfl⟩
      refine ⟨draining.1, draining.2.skip sound fun is pending => ?_⟩
      rw [held has] at is
      obtain no | no | oversize := other _ is
      · exact absurd pending no
      · exact absurd rfl no
      · exact oversize
  | @aliased want cur canonical rest outcome has is pending same uploaded =>
      refine ⟨charged.applyAll (by simp [OfEntry]), ?_⟩
      rintro _ ⟨rfl⟩
      have path := sound.keyed _ _ (held has ▸ is)
      let record := Record.uploadedBySha cur.key cur.sha cur.bytes now canonical.key
      refine ⟨(day_applyAll (by simp [OfEntry])).1.trans draining.1, ?_⟩
      refine (draining.2.apply record (by simp [record])).skip (sound.apply record) fun is' pending' => ?_
      rw [lookup_apply] at is'
      simp only [record, madeOf, path, if_true] at is'
      rw [← Option.some.inj is'] at pending'
      cases pending'
  | starts has is pending same fits =>
      refine ⟨charged, ?_⟩
      rintro _ ⟨rfl⟩
      exact ⟨draining.1, draining.2.starts sound (sound.keyed _ _ (held has ▸ is))⟩
  | @vanished upload order outcome readable has =>
      refine ⟨charged.applyAll (by simp [OfEntry]), ?_⟩
      rintro _ ⟨rfl⟩
      refine ⟨(day_applyAll (by simp [OfEntry])).1.trans draining.1, ?_⟩
      refine (draining.2.apply (.forget upload.key) (by rintro _ _ _ _ ⟨⟩)).finish fun entry is => ?_
      rw [lookup_apply] at is
      simp [madeOf] at is
  | @recorded upload content order outcome has still =>
      have here := steady.2.1 ledger has (upload, content) (by rw [Tiered.recording, at_]; rfl)
      refine ⟨?_, ?_⟩
      · rw [held has] at draining charged ⊢
        exact charged.recorded draining.1 here.2 ..
      · rintro _ ⟨rfl⟩
        refine ⟨rfl, ?_⟩
        let record := Record.done upload.key (env.sha content) content.length now
          ("remote:" ++ upload.key.relPath)
        refine ((draining.2.apply record (by simp [record])).finish fun entry is => ?_).apply (.day _ _)
          (by simp)
        rw [lookup_apply] at is
        simp only [record, madeOf, if_true] at is
        rw [← Option.some.inj is]
        rintro ⟨⟩
  | @outrun upload content order outcome has other =>
      have here := steady.2.1 ledger has (upload, content) (by rw [Tiered.recording, at_]; rfl)
      exact absurd here.1 other

theorem charges_turns (holds : (charges env).Holds env world) (steady : SteadyCharges env op world)
    (turns : Turns env world op turn)
    : (charges env).core ((world.ledger.held env.codec).applyAll turn.records) turn.next
      ∧ (charges env).running ((world.ledger.held env.codec).applyAll turn.records) turn.next := by
  cases turns with
  | drains at_ drains => exact charges_drains holds steady at_ drains
  | begun keys =>
      refine ⟨holds.core, ?_⟩
      rintro _ ⟨rfl⟩
      nofun
  | @ledgered ledger key content place at_ outcome has waits =>
      refine ⟨Charged.applyAll holds.core (by simp [OfEntry]), fun drain is => ?_⟩
      refine (holds.running drain is).put key _ _ at_ is ?_
      cases outcome with
      | crashed count => exact steady.2.2
      | returned | failed => exact steady.2
  | written | lost | put | settled | got | resolvedHere | resolved | fetched | missed =>
      exact ⟨holds.core, holds.running⟩

theorem charges_file (holds : (charges env).Holds env world) (recorded : world.Recorded env)
    : (loadLedger env.codec world.ledger.file).Charged world.uplinked := by
  have charged := holds.core
  cases has : world.ledger.memory with
  | none =>
      rw [LedgerWorld.held_none has] at charged
      exact charged
  | some ledger =>
      rw [LedgerWorld.held_some has] at charged
      obtain ⟨day, bytes⟩ := recorded.2 ledger has
      exact charged.of_day day bytes

/-- The process can end in a write: the day's bytes are those of the file, or all is written. -/
theorem charges_crash (holds : (charges env).Holds env world) (steady : SteadyCharges env op world)
    {count : Nat} (turned : world.turn env op = some turn) (turns : Turns env world op turn)
    (crash : op.outcome = .crashed count)
    : (∀ part, part <+: turn.records →
        (world.ledger.Lands env.codec turn.records (.crashed count) → part = turn.records) →
        ((world.ledger.held env.codec).applyAll part).Charged turn.next.dies.uplinked)
      ∧ (¬ world.ledger.Lands env.codec turn.records (.crashed count) →
        (loadLedger env.codec world.ledger.file).Charged turn.next.dies.uplinked) := by
  have charged : (world.ledger.held env.codec).Charged world.uplinked := holds.core
  have ends (recorded : world.Recorded env) (nothing : turn.next.unrecorded = [])
      (same : turn.next.uplinked = world.uplinked)
      (kept : ∀ part, part <+: turn.records →
        ((world.ledger.held env.codec).applyAll part).Charged world.uplinked)
      : (∀ part, part <+: turn.records →
          (world.ledger.Lands env.codec turn.records (.crashed count) → part = turn.records) →
          ((world.ledger.held env.codec).applyAll part).Charged turn.next.dies.uplinked)
        ∧ (¬ world.ledger.Lands env.codec turn.records (.crashed count) →
          (loadLedger env.codec world.ledger.file).Charged turn.next.dies.uplinked) := by
    rw [dies_uplinked nothing, same]
    exact ⟨fun part begins _ => kept part begins, fun _ => charges_file holds recorded⟩
  have entries (only : ∀ record ∈ turn.records, OfEntry record) (part : List Record)
      (begins : part <+: turn.records)
      : ((world.ledger.held env.codec).applyAll part).Charged world.uplinked :=
    charged.applyAll fun record listed => only record (begins.subset listed)
  cases turns with
  | written | lost | put | begun | got | resolvedHere | resolved | fetched | missed =>
      exact absurd crash nofun
  | settled | ledgered =>
      obtain rfl := crash
      exact ends steady.2.1 steady.2.1.1 rfl (entries (by simp [OfEntry]))
  | drains at_ drains =>
      cases drains with
      | found | unreadable | scanned | requeued | forgotten | ordered | sent | landed | refused =>
          exact absurd crash nofun
      | marked has today =>
          obtain rfl := crash
          exact ends (steady.2.2 rfl) rfl rfl (entries (holds.running _ at_))
      | newDay has other =>
          obtain rfl := crash
          refine ends (steady.2.2 rfl) rfl rfl fun part begins => ?_
          refine charged.of_prefix ?_ (holds.running _ at_) begins
          rw [LedgerWorld.held_some has]
          exact Nat.lt_of_le_of_ne (steady.2.1 _ has _ at_) other
      | drained | skipped | aliased | deferred | starts =>
          obtain rfl := crash
          exact ends (steady.2.2 rfl) rfl rfl (entries (by simp [OfEntry]))
      | closed | opened | vanished =>
          obtain rfl := crash
          exact ends (steady.2 rfl) rfl rfl (entries (by simp [OfEntry]))
      | recorded has still =>
          obtain rfl := crash
          have landed := steady.2.2 _ turned
          refine ⟨fun part begins whole => ?_, fun unlanded => absurd landed unlanded⟩
          obtain rfl := whole landed
          have next := (charges_drains holds steady at_ (.recorded has still)).1
          rw [dies_uplinked]
          · exact next
          · rfl
      | @outrun upload content order outcome has other =>
          have here := steady.2.1 _ has (upload, content) (by rw [Tiered.recording, at_]; rfl)
          exact absurd here.1 other

/-- What a step of a drain moves is within the budget, and nothing that could move came earlier. -/
theorem fair_operate (holds : (charges env).Holds env world) (steady : SteadyCharges env op world)
    (done : world.operate env op = some after)
    : Fair env ⟨op, world, after⟩ := by
  obtain ⟨lines, tail, file⟩ := holds.file
  have charged : (world.ledger.held env.codec).Charged world.uplinked := holds.core
  have first {now : Nat} {want cur : Entry} {rest : List Entry}
      (at_ : world.drain = some ⟨now, .moving (want :: rest)⟩) (same : cur = want) (rel : String)
      (entry : Entry) (has : (world.ledger.held env.codec).entries.lookup rel = some entry)
      (pending : entry.state = .pending) (before : ¬ earlier cur entry)
      : env.oversize entry.bytes :=
    (holds.running _ at_).2.first has pending (same ▸ before)
  constructor
  case budget =>
    rintro outcome now upload order rfl is cap capped
    obtain ⟨turn, turns, drain, -⟩ := operate_alive done nofun nofun
    cases turns with
    | drains at_ drains =>
        cases drains with
        | drained | deferred | skipped | aliased => exact absurd (drain _ is) nofun
        | starts has cur pending same fits =>
            obtain ⟨rfl⟩ := drain _ is
            have sums := ((steady.2.1 _ has _ (by rw [Tiered.wanted, at_]; rfl) _ cur pending same).2
              cap capped)
            have today := (holds.running _ at_).1
            have counted := charged.counted
            rw [LedgerWorld.held_some has] at counted today
            rw [today] at counted
            rw [TierEnv.fits, Option.mem_def.mp capped] at fits
            simp only [Option.all_some, decide_eq_true_eq, saturatingAdd, Nat.min_eq_left sums] at fits
            exact (Nat.add_le_add_right counted _).trans fits
  case first =>
    rintro cur moved rel entry has pending before
    cases moved with
    | starts label is =>
        obtain rfl := label
        obtain ⟨turn, turns, drain, -⟩ := operate_alive done nofun nofun
        cases turns with
        | drains at_ drains =>
            cases drains with
            | drained | deferred | skipped | aliased => exact absurd (drain _ is) nofun
            | starts has' is' pending' same fits =>
                obtain ⟨rfl⟩ := drain _ is
                have kept := (steady.2.1 _ has' _ (by rw [Tiered.wanted, at_]; rfl) _ is' pending' same).1
                exact first at_ kept rel entry has pending before
    | @aliased _ path _ _ _ label was waits memory is alias_ =>
        obtain rfl := label
        obtain ⟨turn, turns, -, alive⟩ := operate_alive done nofun nofun
        rw [alive _ memory] at is
        cases turns with
        | drains at_ drains =>
            cases drains with
            | drained | deferred | skipped | starts =>
                obtain rfl := Option.some.inj (was.symm.trans is)
                exact absurd (waits.symm.trans alias_) nofun
            | @aliased want cur' canonical rest _ has' is' pending' same uploaded =>
                have kept := (steady.2.1 _ has' _ (by rw [Tiered.wanted, at_]; rfl) _ is' pending' same).1
                rw [← @LedgerWorld.held_some env.codec _ _ has'] at is'
                simp only [applyAll_single, lookup_apply, madeOf] at is
                split_ifs at is with same
                · have here := same.trans (file.sound.keyed _ _ is')
                  obtain rfl := Option.some.inj (was.symm.trans (here ▸ is'))
                  exact first at_ kept rel entry has pending before
                · obtain rfl := Option.some.inj (was.symm.trans is)
                  exact absurd (waits.symm.trans alias_) nofun

/-- In every run of such steps the day's count is at least the bytes that came to the remote tier on its
account, each upload that begins is within the budget with them, and nothing is moved before an entry that
came earlier and can be moved.
-/
theorem every_byte_is_charged (env : TierEnv)
    : ∀ commits world, (tieredSystem env).History (SteadyCharges env) {} commits world →
      let ledger := world.ledger.held env.codec
      uplinkedOn world.uplinked ledger.day ≤ ledger.dayBytes
        ∧ ∀ commit ∈ commits, Fair env commit := by
  intro commits world history
  have initial : (charges env).Holds env {} := by
    refine ⟨⟨[], [], rfl, Or.inl rfl, ⟨[], .none_, .refl _⟩, nofun⟩, ?_, ⟨le_rfl, nofun⟩, nofun⟩
    intro rel entry has
    simp [LedgerWorld.held, loadLedger, allLines] at has
  have whole := @System.History.rule _ _ _ _ ((charges env).Holds env) (Fair env) _ _ _ history initial ?_
  · exact ⟨whole.1.core.counted, fun commit listed => (whole.2 commit listed).2.2⟩
  · intro op origin _ commit member holds steady
    obtain ⟨after, done, rfl⟩ := mem_commitsFrom_toList.mp member
    refine ⟨?_, fair_operate holds steady done⟩
    refine holds.operate done steady.1 (fun turn turns => charges_turns holds steady turns)
      (fun turn count turned turns crash => charges_crash holds steady turned turns crash) ?_
    rintro rfl
    show (loadLedger env.codec origin.ledger.file).Charged origin.dies.uplinked
    rw [dies_uplinked steady.2.1]
    exact charges_file holds steady.2

-- A put that comes between

instance decidableLands (codec : Codec) (world : LedgerWorld) (records : List Record)
    : ∀ outcome, Decidable (world.Lands codec records outcome)
  | .crashed count => inferInstanceAs (Decidable (∀ ledger ∈ world.memory,
      let applied := ledger.applyAll records
      if applied.compacts records then (encodeAll codec applied.snapshot).length < count
      else (encodeAll codec records).length ≤ count))
  | .returned | .failed _ => inferInstanceAs (Decidable True)

instance decidableUncut (env : TierEnv) (op : TierOp) (world : Tiered)
    : Decidable (Uncut env op world) :=
  inferInstanceAs (Decidable (∀ _ ∈ _, _))

instance decidableRecorded (env : TierEnv) (world : Tiered)
    : Decidable (world.Recorded env) :=
  inferInstanceAs (Decidable (_ ∧ ∀ _ ∈ _, _))

instance decidableSteadyCharges (env : TierEnv)
    : ∀ (op : TierOp) (world : Tiered), Decidable (SteadyCharges env op world)
  | .restart, world => inferInstanceAs (Decidable (_ ∧ world.Recorded env))
  | .ledgerPut _ _ (.crashed _), _ | .mark _, _ | .next _, _ | .record _, _ =>
      inferInstanceAs (Decidable (_ ∧ _ ∧ _))
  | .ledgerPut _ _ .returned, _ | .ledgerPut _ _ (.failed _), _ =>
      inferInstanceAs (Decidable (_ ∧ ∀ _ ∈ _, _))
  | .open_ _ _, _ => inferInstanceAs (Decidable (_ ∧ (_ → _)))
  | .send _, _ => inferInstanceAs (Decidable (_ ∧ _))
  | .write .., _ | .lose _, _ | .put .., _ | .load, _ | .drain .., _ | .scan _, _ | .repair, _ | .order, _
  | .get _, _ | .resolve _, _ | .fetch _, _ => inferInstanceAs (Decidable (_ ∧ True))

def spell (content : Bytes) : String :=
  String.ofList (content.map fun byte => Char.ofNat byte.toNat)

def threeADay : TierEnv where
  codec := Unary.records
  sha := spell
  bytesPerDay := some 3

def artifact (name : String) : ArtifactKey :=
  ⟨"run", "task", name⟩

/-- Three artifacts are put; two of them are moved, and there is no budget for the third. -/
def movesTwo : List TierOp :=
  [.load, .put (artifact "a") [1, 2], .ledgerPut 0 0 .returned, .put (artifact "b") [3],
    .ledgerPut 0 0 .returned, .put (artifact "c") [4], .ledgerPut 0 0 .returned, .drain 0 [], .scan true,
    .mark .returned, .order, .next .returned, .open_ true .returned, .send .taken, .record .returned,
    .next .returned, .open_ true .returned, .send .taken, .record .returned, .next .returned, .restart]

/-- Both are charged, after the process starts again too. -/
theorem every_byte_is_charged_movesTwo
    : let world := (tieredSystem threeADay).outcome {} movesTwo
      let ledger := world.ledger.held Unary.records
      world.uplinked = [(0, 2), (0, 1)] ∧ ledger.dayBytes = 3
        ∧ uplinkedOn world.uplinked ledger.day ≤ ledger.dayBytes :=
  ⟨by decide +kernel, by decide +kernel,
    (every_byte_is_charged threeADay _ _ (.whole .start (by decide +kernel))).1⟩

def putAgain : List TierOp :=
  [.load, .put (artifact "a") [1, 2], .ledgerPut 0 0 .returned, .drain 0 [], .scan true, .mark .returned,
    .order, .next .returned, .open_ true .returned, .put (artifact "a") [3], .ledgerPut 0 0 .returned,
    .send .taken, .record .returned]

/-- What was uploaded is then charged to no day. -/
theorem a_put_hides_an_upload
    : ¬ ∀ (env : TierEnv) (commits : List (Commit Tiered TierOp)) (world : Tiered),
        (tieredSystem env).History (fun _ _ => True) {} commits world →
          let ledger := world.ledger.held env.codec
          uplinkedOn world.uplinked ledger.day ≤ ledger.dayBytes
            ∧ ∀ commit ∈ commits, Fair env commit := by
  intro charged
  have permitted : (tieredSystem threeADay).Permits (fun _ _ => True) {} putAgain := by decide +kernel
  have counted := (charged threeADay _ _ (.whole .start permitted)).1
  have uncounted : ¬ uplinkedOn ((tieredSystem threeADay).outcome {} putAgain).uplinked
        (((tieredSystem threeADay).outcome {} putAgain).ledger.held Unary.records).day
      ≤ (((tieredSystem threeADay).outcome {} putAgain).ledger.held Unary.records).dayBytes := by
    decide +kernel
  exact uncounted counted

end Dagron.Artifact
