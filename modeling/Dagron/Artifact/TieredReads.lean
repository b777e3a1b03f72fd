import Dagron.Artifact.TieredCharges

/-! What a tiered store reads for a key was put there: what is uploaded has the hash that the ledger has, and
an alias is read from another key's object only while that has the alias's hash, as long as the ledger is not
changed between the two parts of a read.
-/

namespace Dagron.Artifact

open Dagron.Library Tiered Ledger

-- What is asked

/-- Whether a key's answer from another key's object is that of an alias of it: the other is uploaded with
the alias's hash, which the object has.
-/
def ServesAlias (env : TierEnv) (commit : Commit Tiered TierOp) : Prop :=
  ∀ place key remoteKey content, commit.label = .fetch place →
    commit.before.reads[place]? = some (key, remoteKey) → remoteKey.relPath ≠ key.relPath →
    commit.before.remote remoteKey.relPath = some content →
    ∃ entry canonical remote,
      (commit.before.ledger.held env.codec).entries.lookup key.relPath = some entry
        ∧ entry.state = .alias_ remoteKey
        ∧ (commit.before.ledger.held env.codec).entries.lookup remoteKey.relPath = some canonical
        ∧ canonical.state = .done remote ∧ canonical.sha = entry.sha ∧ env.sha content = entry.sha

/-- What is read is what was stored, and what the ledger has as uploaded is there with its hash. -/
structure ReadsOwn (env : TierEnv) (world : Tiered) : Prop where
  answers
    : ∀ key content, (key, content) ∈ world.answers → content ∈ world.stored key.relPath
  uploaded
    : ∀ rel entry remote, (world.ledger.held env.codec).entries.lookup rel = some entry →
      entry.state = .done remote → ∃ content, world.remote rel = some content ∧ env.sha content = entry.sha

namespace Tiered

/-- Whether what is read of the file is the ledger in memory. -/
def OnFile (env : TierEnv) (world : Tiered) : Prop :=
  ∀ ledger ∈ world.ledger.memory, Ledger.Same (loadLedger env.codec world.ledger.file) ledger

/-- Steps at which reads are of their own key: a line is not cut just before its end; the process does not
end with a ledger in memory that could not be written; and what was resolved to another key is fetched while
the ledger still has it so.
-/
def SteadyReads (env : TierEnv) (op : TierOp) (world : Tiered) : Prop :=
  Uncut env op world
    ∧ ((op = .restart ∨ (op.outcome matches .crashed _)) → world.OnFile env)
    ∧ match op with
      | .fetch place =>
          ∀ read ∈ world.reads[place]?, read.2.relPath = read.1.relPath
            ∨ (world.ledger.held env.codec).remoteKeyFor read.1 = some read.2
      | _ => True

end Tiered

-- The ledger and what is stored

/-- Whether an entry's hash is of bytes that were stored at its path. -/
def Own (env : TierEnv) (world : Tiered) (rel sha : String) : Prop :=
  ∃ content ∈ world.stored rel, env.sha content = sha

/-- What holds of the ledger, the tiers and what was read. -/
structure Genuine (env : TierEnv) (ledger : Ledger) (world : Tiered) : Prop where
  own
    : ∀ rel entry, ledger.entries.lookup rel = some entry → Own env world rel entry.sha
  uploaded
    : ∀ rel entry remote, ledger.entries.lookup rel = some entry → entry.state = .done remote →
      ∃ content, world.remote rel = some content ∧ env.sha content = entry.sha
  local_
    : ∀ rel content, world.local_ rel = some content → content ∈ world.stored rel
  remote
    : ∀ rel content, world.remote rel = some content → content ∈ world.stored rel
  puts
    : ∀ key content, (key, content) ∈ world.puts → content ∈ world.stored key.relPath
  answers
    : ∀ key content, (key, content) ∈ world.answers → content ∈ world.stored key.relPath

/-- Whether a record is of what was stored, and one of an upload of what is there. -/
def Makes (env : TierEnv) (world : Tiered) : Record → Prop
  | .pending key sha _ _ | .uploadedBySha key sha _ _ _ => Own env world key.relPath sha
  | .done key sha _ _ _ => ∃ content, world.remote key.relPath = some content ∧ env.sha content = sha
  | .day .. | .forget _ => True

/-- Whether nothing at an entry's path is uploaded or an alias. -/
def Waits (ledger : Ledger) (upload : Entry) : Prop :=
  ∀ entry, ledger.entries.lookup upload.key.relPath = some entry → entry.state = .pending

/-- What holds of a drain: what it found was stored; what it uploads still waits, and was stored; and what it
is to record is there.
-/
def Uploading (env : TierEnv) (ledger : Ledger) (world : Tiered) : DrainPhase → Prop
  | .scanning _ records => ∀ record ∈ records, Makes env world record
  | .stale aliases records =>
      (∀ entry ∈ aliases, Own env world entry.key.relPath entry.sha)
        ∧ ∀ record ∈ records, Makes env world record
  | .opening upload _ => Waits ledger upload
  | .sending upload content _ => content ∈ world.stored upload.key.relPath ∧ Waits ledger upload
  | .recording upload content _ =>
      world.remote upload.key.relPath = some content ∧ Waits ledger upload
  | _ => True

theorem Same.lookup {first second : Ledger} (same : Ledger.Same first second) {rel : String} {entry : Entry}
    (has : first.entries.lookup rel = some entry)
    : ∃ other, second.entries.lookup rel = some other ∧ other.sha = entry.sha
      ∧ other.state = entry.state := by
  have both := same.entries rel
  rw [has] at both
  obtain ⟨other, is, same⟩ := Option.map_eq_some_iff.mp both.symm
  have sha : (unnumbered other).sha = (unnumbered entry).sha := congrArg Entry.sha same
  have state : (unnumbered other).state = (unnumbered entry).state := congrArg Entry.state same
  exact ⟨other, is, sha, state⟩

namespace Genuine

variable {env : TierEnv} {ledger : Ledger} {world : Tiered}

theorem same (genuine : Genuine env ledger world) {other : Ledger} (same : Ledger.Same other ledger)
    : Genuine env other world := by
  refine { genuine with own := fun rel entry has => ?_, uploaded := fun rel entry remote has done => ?_ }
  · obtain ⟨here, is, sha, -⟩ := Same.lookup same has
    exact sha ▸ genuine.own rel here is
  · obtain ⟨here, is, sha, state⟩ := Same.lookup same has
    exact sha ▸ genuine.uploaded rel here remote is (state.trans done)

theorem was_or_made {record : Record} {rel : String} {entry : Entry}
    (has : (ledger.apply record).entries.lookup rel = some entry)
    : ledger.entries.lookup rel = some entry
      ∨ madeOf ledger.nextSeq record = some (rel, some entry) := by
  rw [lookup_apply] at has
  cases record with
  | day => exact Or.inl has
  | forget key =>
      simp only [madeOf] at has
      split_ifs at has
      exact Or.inl has
  | pending key | done key | uploadedBySha key =>
      simp only [madeOf] at has
      split_ifs at has with same
      · exact Or.inr (by rw [same, ← has]; rfl)
      · exact Or.inl has

theorem own_of_made (genuine : Genuine env ledger world) {record : Record} (makes : Makes env world record)
    {seq : Nat} {rel : String} {entry : Entry} (made : madeOf seq record = some (rel, some entry))
    : Own env world rel entry.sha := by
  cases record with
  | day | forget => exact absurd made nofun
  | pending | uploadedBySha =>
      cases made
      exact makes
  | done =>
      cases made
      obtain ⟨content, there, hash⟩ := makes
      exact ⟨content, genuine.remote _ content there, hash⟩

theorem uploaded_of_made {record : Record} (makes : Makes env world record) {seq : Nat} {rel : String}
    {entry : Entry} (made : madeOf seq record = some (rel, some entry)) {remote : String}
    (done : entry.state = .done remote)
    : ∃ content, world.remote rel = some content ∧ env.sha content = entry.sha := by
  cases record with
  | day | forget => exact absurd made nofun
  | pending | uploadedBySha =>
      cases made
      exact absurd done nofun
  | done =>
      cases made
      exact makes

theorem apply (genuine : Genuine env ledger world) {record : Record} (makes : Makes env world record)
    : Genuine env (ledger.apply record) world := by
  refine { genuine with own := fun rel entry has => ?_, uploaded := fun rel entry remote has done => ?_ }
  · obtain was | made := was_or_made has
    · exact genuine.own rel entry was
    · exact genuine.own_of_made makes made
  · obtain was | made := was_or_made has
    · exact genuine.uploaded rel entry remote was done
    · exact uploaded_of_made makes made done

theorem applyAll (genuine : Genuine env ledger world) {records : List Record}
    (makes : ∀ record ∈ records, Makes env world record)
    : Genuine env (ledger.applyAll records) world := by
  induction records generalizing ledger with
  | nil => exact genuine
  | cons record rest ih =>
      exact ih (genuine.apply (makes record List.mem_cons_self)) fun other listed =>
        makes other (List.mem_cons_of_mem _ listed)

theorem mem_lands {key : ArtifactKey} {content other : Bytes} {rel : String}
    (stored : other ∈ world.stored rel)
    : other ∈ (world.lands key content).stored rel := by
  by_cases same : rel = key.relPath
  · subst same
    simp only [Tiered.lands, Function.update_self]
    exact List.mem_cons_of_mem _ stored
  · simp only [Tiered.lands, Function.update_of_ne same]
    exact stored

theorem lands_self {key : ArtifactKey} {content : Bytes}
    : content ∈ (world.lands key content).stored key.relPath := by
  simp only [Tiered.lands, Function.update_self]
  exact List.mem_cons_self

theorem lands (genuine : Genuine env ledger world) (key : ArtifactKey) (content : Bytes)
    : Genuine env ledger (world.lands key content) where
  own rel entry has := by
    obtain ⟨other, stored, hash⟩ := genuine.own rel entry has
    exact ⟨other, mem_lands stored, hash⟩
  uploaded := genuine.uploaded
  local_ rel other is := by
    by_cases same : rel = key.relPath
    · subst same
      simp only [Tiered.lands, Function.update_self, Option.some.injEq] at is
      exact is ▸ lands_self
    · simp only [Tiered.lands, Function.update_of_ne same] at is
      exact mem_lands (genuine.local_ rel other is)
  remote rel other is := mem_lands (genuine.remote rel other is)
  puts other put listed := mem_lands (genuine.puts other put listed)
  answers other answer listed := mem_lands (genuine.answers other answer listed)

theorem answered (genuine : Genuine env ledger world) {key : ArtifactKey} {content : Bytes}
    (stored : content ∈ world.stored key.relPath) (other : ArtifactKey) (answer : Bytes)
    (listed : (other, answer) ∈ world.answers ++ [(key, content)])
    : answer ∈ world.stored other.relPath := by
  obtain before | last := List.mem_append.mp listed
  · exact genuine.answers other answer before
  · obtain ⟨rfl, rfl⟩ := Prod.mk.inj (List.mem_singleton.mp last)
    exact stored

theorem sent (genuine : Genuine env ledger world) {upload : Entry} {content : Bytes}
    (stored : content ∈ world.stored upload.key.relPath) (waits : Waits ledger upload)
    : Genuine env ledger
        { world with remote := Function.update world.remote upload.key.relPath (some content) } := by
  refine { genuine with uploaded := fun rel entry remote has done => ?_, remote := fun rel other is => ?_ }
  · by_cases same : rel = upload.key.relPath
    · subst same
      exact absurd ((waits entry has).symm.trans done) nofun
    · simp only [Function.update_of_ne same]
      exact genuine.uploaded rel entry remote has done
  · by_cases same : rel = upload.key.relPath
    · subst same
      simp only [Function.update_self, Option.some.injEq] at is
      exact is ▸ stored
    · simp only [Function.update_of_ne same] at is
      exact genuine.remote rel other is

end Genuine

-- Every run

def reads (env : TierEnv) : TierInvariant where
  core := Genuine env
  running ledger world := ∀ drain ∈ world.drain, Uploading env ledger world drain.phase
  same same genuine := genuine.same same
  flagged appended suspect running drain is := by
    have uploading := running drain is
    obtain ⟨now, phase⟩ := drain
    cases phase <;> exact uploading
  core_ledger file genuine := { genuine with }
  running_ledger file running drain is := by
    have uploading := running drain is
    obtain ⟨now, phase⟩ := drain
    cases phase <;> exact uploading
  core_stops genuine := { genuine with }
  running_stops none_ := by
    rintro drain is
    exact absurd (none_.symm.trans is) nofun

variable {env : TierEnv} {world after : Tiered} {op : TierOp} {turn : Turn} {ledger : Ledger}

theorem Uploading.lands {phase : DrainPhase} (uploading : Uploading env ledger world phase)
    (key : ArtifactKey) (content : Bytes)
    : Uploading env ledger (world.lands key content) phase := by
  have own {rel sha : String} (own : Own env world rel sha) : Own env (world.lands key content) rel sha :=
    let ⟨other, stored, hash⟩ := own
    ⟨other, Genuine.mem_lands stored, hash⟩
  have makes {record : Record} (makes : Makes env world record)
      : Makes env (world.lands key content) record := by
    cases record with
    | pending | uploadedBySha => exact own makes
    | done | day | forget => exact makes
  cases phase with
  | scanning => exact fun record listed => makes (uploading record listed)
  | stale =>
      exact ⟨fun entry listed => own (uploading.1 entry listed),
        fun record listed => makes (uploading.2 record listed)⟩
  | sending => exact ⟨Genuine.mem_lands uploading.1, uploading.2⟩
  | ordering | moving | opening | recording => exact uploading

theorem Uploading.put {phase : DrainPhase} (uploading : Uploading env ledger world phase)
    (key : ArtifactKey) (sha : String) (bytes at_ : Nat)
    : Uploading env (ledger.apply (.pending key sha bytes at_)) world phase := by
  have waits {upload : Entry} (waits : Waits ledger upload)
      : Waits (ledger.apply (.pending key sha bytes at_)) upload := by
    intro entry has
    obtain was | made := Genuine.was_or_made has
    · exact waits entry was
    · have same := congrArg Prod.snd (Option.some.inj made)
      rw [← Option.some.inj same]
  cases phase with
  | scanning | stale | ordering | moving => exact uploading
  | opening => exact waits uploading
  | sending | recording => exact uploading.imp_right waits

theorem own_of_entry (genuine : Genuine env ledger world) (sound : ledger.Sound) {rel : String}
    {entry : Entry} (has : ledger.entries.lookup rel = some entry)
    : Own env world entry.key.relPath entry.sha := by
  rw [sound.keyed rel entry has]
  exact genuine.own rel entry has

theorem makes_drains (holds : (reads env).Holds env world) {now : Nat} {phase : DrainPhase}
    (at_ : world.drain = some ⟨now, phase⟩) (drains : Drains env world ledger now phase op turn)
    : ∀ record ∈ turn.records, Makes env turn.next record := by
  obtain ⟨lines, tail, file⟩ := holds.file
  have genuine : Genuine env (world.ledger.held env.codec) world := holds.core
  have uploading := holds.running _ at_
  intro record listed
  cases drains with
  | found | unreadable | scanned | requeued | forgotten | ordered | drained | skipped | deferred | starts
  | closed | opened | sent | landed | refused | outrun => exact absurd listed nofun
  | marked has today => exact uploading.2 record listed
  | newDay has other =>
      obtain found | day := List.mem_append.mp listed
      · exact uploading.2 record found
      · rw [List.mem_singleton.mp day]
        trivial
  | aliased has is pending same uploaded =>
      rw [List.mem_singleton.mp listed]
      rw [← @LedgerWorld.held_some env.codec _ _ has] at is
      exact own_of_entry genuine file.sound is
  | vanished has =>
      rw [List.mem_singleton.mp listed]
      trivial
  | recorded has still =>
      obtain rfl | day := List.mem_cons.mp listed
      · exact ⟨_, uploading.1, rfl⟩
      · rw [List.mem_singleton.mp day]
        trivial

theorem genuine_drains (holds : (reads env).Holds env world) {now : Nat} {phase : DrainPhase}
    (at_ : world.drain = some ⟨now, phase⟩) (drains : Drains env world ledger now phase op turn)
    : Genuine env (world.ledger.held env.codec) turn.next := by
  have genuine : Genuine env (world.ledger.held env.codec) world := holds.core
  have uploading := holds.running _ at_
  cases drains with
  | sent | landed => exact { genuine.sent uploading.1 uploading.2 with }
  | _ => exact { genuine with }

theorem uploading_drains (holds : (reads env).Holds env world) {now : Nat} {phase : DrainPhase}
    (at_ : world.drain = some ⟨now, phase⟩) (drains : Drains env world ledger now phase op turn)
    : ∀ drain ∈ turn.next.drain,
      Uploading env ((world.ledger.held env.codec).applyAll turn.records) turn.next drain.phase := by
  obtain ⟨lines, tail, file⟩ := holds.file
  have genuine : Genuine env (world.ledger.held env.codec) world := holds.core
  have uploading := holds.running _ at_
  have sound := file.sound
  have held (has : world.ledger.memory = some ledger) : world.ledger.held env.codec = ledger :=
    LedgerWorld.held_some has
  have more {records : List Record} {record : Record} (all : ∀ record ∈ records, Makes env world record)
      (makes : Makes env world record)
      : ∀ other ∈ records ++ [record], Makes env world other := by
    intro other listed
    obtain before | last := List.mem_append.mp listed
    · exact all other before
    · rw [List.mem_singleton.mp last]
      exact makes
  cases drains with
  | drained | deferred | closed | landed | refused => nofun
  | found has =>
      rintro _ ⟨rfl⟩
      exact more uploading ⟨_, genuine.local_ _ _ has, rfl⟩
  | unreadable =>
      rintro _ ⟨rfl⟩
      exact uploading
  | scanned has =>
      rintro _ ⟨rfl⟩
      refine ⟨fun entry listed => ?_, uploading⟩
      rw [staleAliases, List.mem_filter, List.mem_map] at listed
      obtain ⟨⟨⟨rel, _⟩, listed, rfl⟩, -⟩ := listed
      rw [← held has] at listed
      exact own_of_entry genuine sound (AList.mem_lookup_iff.mpr listed)
  | requeued =>
      rintro _ ⟨rfl⟩
      exact ⟨fun entry listed => uploading.1 entry (List.mem_cons_of_mem _ listed),
        more uploading.2 (uploading.1 _ List.mem_cons_self)⟩
  | forgotten =>
      rintro _ ⟨rfl⟩
      exact ⟨fun entry listed => uploading.1 entry (List.mem_cons_of_mem _ listed),
        more uploading.2 trivial⟩
  | marked | newDay | ordered | skipped | aliased | vanished | recorded | outrun =>
      rintro _ ⟨rfl⟩
      trivial
  | starts has is pending same fits =>
      rintro _ ⟨rfl⟩
      intro entry has'
      rw [← held has] at is
      rw [sound.keyed _ _ is] at has'
      rw [← Option.some.inj (is.symm.trans has')]
      exact pending
  | opened has =>
      rintro _ ⟨rfl⟩
      exact ⟨genuine.local_ _ _ has, uploading⟩
  | sent =>
      rintro _ ⟨rfl⟩
      exact ⟨Function.update_self .., uploading.2⟩

theorem makes_turns (holds : (reads env).Holds env world) (turns : Turns env world op turn)
    : ∀ record ∈ turn.records, Makes env turn.next record := by
  have genuine : Genuine env (world.ledger.held env.codec) world := holds.core
  cases turns with
  | drains at_ drains => exact makes_drains holds at_ drains
  | ledgered has waits =>
      intro record listed
      rw [List.mem_singleton.mp listed]
      exact ⟨_, genuine.puts _ _ (List.mem_of_getElem? waits), rfl⟩
  | _ => nofun

/-- Whether a fetched object was stored at the key that was read. -/
def FetchesOwn (op : TierOp) (world : Tiered) : Prop :=
  ∀ place key remoteKey content, op = .fetch place → world.reads[place]? = some (key, remoteKey) →
    world.remote remoteKey.relPath = some content → content ∈ world.stored key.relPath

theorem genuine_turns (holds : (reads env).Holds env world) (own : FetchesOwn op world)
    (turns : Turns env world op turn)
    : Genuine env (world.ledger.held env.codec) turn.next := by
  have genuine : Genuine env (world.ledger.held env.codec) world := holds.core
  cases turns with
  | drains at_ drains => exact genuine_drains holds at_ drains
  | written key content => exact genuine.lands key content
  | lost key =>
      refine { genuine with local_ := fun rel content is => ?_ }
      by_cases same : rel = key.relPath
      · subst same
        simp only [Function.update_self] at is
        exact absurd is nofun
      · simp only [Function.update_of_ne same] at is
        exact genuine.local_ rel content is
  | put key content =>
      refine { genuine.lands key content with puts := fun other put listed => ?_ }
      obtain before | last := List.mem_append.mp listed
      · exact Genuine.mem_lands (genuine.puts other put before)
      · obtain ⟨rfl, rfl⟩ := Prod.mk.inj (List.mem_singleton.mp last)
        exact Genuine.lands_self
  | settled | ledgered =>
      exact { genuine with
        puts := fun key content listed => genuine.puts key content (List.mem_of_mem_eraseIdx listed) }
  | got has | resolvedHere has =>
      exact { genuine with answers := genuine.answered (genuine.local_ _ _ has) }
  | begun | resolved | missed => exact { genuine with }
  | fetched waits has =>
      exact { genuine with answers := genuine.answered (own _ _ _ _ rfl waits has) }

theorem uploading_turns (holds : (reads env).Holds env world) (turns : Turns env world op turn)
    : ∀ drain ∈ turn.next.drain,
      Uploading env ((world.ledger.held env.codec).applyAll turn.records) turn.next drain.phase := by
  have running := holds.running
  cases turns with
  | drains at_ drains => exact uploading_drains holds at_ drains
  | written key content | put key content =>
      intro drain is
      exact (running drain is).lands key content
  | ledgered has waits =>
      intro drain is
      exact (running drain is).put ..
  | begun keys =>
      rintro _ ⟨rfl⟩
      nofun
  | lost | settled | got | resolvedHere | resolved | fetched | missed => exact running

/-- A key that is resolved to another one is an alias of it, which is uploaded with its hash. -/
theorem alias_of_remoteKeyFor {key remoteKey : ArtifactKey} (asks : ledger.remoteKeyFor key = some remoteKey)
    (other : remoteKey.relPath ≠ key.relPath)
    : ∃ entry canonical remote, ledger.entries.lookup key.relPath = some entry
      ∧ entry.state = .alias_ remoteKey ∧ ledger.entries.lookup remoteKey.relPath = some canonical
      ∧ canonical.state = .done remote ∧ canonical.sha = entry.sha := by
  unfold remoteKeyFor at asks
  cases has : ledger.entries.lookup key.relPath with
  | none =>
      rw [has] at asks
      exact absurd (congrArg ArtifactKey.relPath (Option.some.inj asks)).symm other
  | some entry =>
      simp only [has] at asks
      cases state : entry.state with
      | pending | done =>
          simp only [state] at asks
          exact absurd (congrArg ArtifactKey.relPath (Option.some.inj asks)).symm other
      | alias_ of_ =>
          simp only [state, Option.ite_none_right_eq_some] at asks
          obtain ⟨valid, same⟩ := asks
          obtain rfl := Option.some.inj same
          simp only [aliasTargetValid, state, Option.any_eq_true, Bool.and_eq_true, beq_iff_eq] at valid
          obtain ⟨canonical, is, done, sha⟩ := valid
          cases uploaded : canonical.state with
          | done remote => exact ⟨entry, canonical, remote, rfl, state, is, uploaded, sha⟩
          | pending | alias_ => simp [uploaded] at done

theorem servesAlias_operate (genuine : Genuine env (world.ledger.held env.codec) world)
    (steady : SteadyReads env op world)
    : ServesAlias env ⟨op, world, after⟩ := by
  rintro place key remoteKey content rfl waits other there
  obtain same | asks := steady.2.2 _ waits
  · exact absurd same other
  · obtain ⟨entry, canonical, remote, has, state, is, done, sha⟩ := alias_of_remoteKeyFor asks other
    obtain ⟨object, there', hash⟩ := genuine.uploaded _ canonical remote is done
    obtain rfl := Option.some.inj (there.symm.trans there')
    exact ⟨entry, canonical, remote, has, state, is, done, sha, hash.trans sha⟩

theorem fetchesOwn_operate (injective : Function.Injective env.sha)
    (genuine : Genuine env (world.ledger.held env.codec) world) (steady : SteadyReads env op world)
    : FetchesOwn op world := by
  intro place key remoteKey content label waits there
  by_cases same : remoteKey.relPath = key.relPath
  · rw [← same]
    exact genuine.remote _ content there
  · obtain ⟨entry, _, _, has, -, -, -, -, hash⟩ :=
      @servesAlias_operate env world world op genuine steady place key remoteKey content label waits same there
    obtain ⟨own, stored, same⟩ := genuine.own _ entry has
    rw [injective (hash.trans same.symm)]
    exact stored

theorem genuine_dies (genuine : Genuine env ledger world)
    : Genuine env ledger world.dies :=
  { genuine with puts := nofun }

theorem genuine_file (genuine : Genuine env (world.ledger.held env.codec) after) (onFile : world.OnFile env)
    : Genuine env (loadLedger env.codec world.ledger.file) after := by
  refine genuine.same ?_
  cases has : world.ledger.memory with
  | none =>
      rw [LedgerWorld.held_none has]
      exact .refl _
  | some ledger =>
      rw [LedgerWorld.held_some has]
      exact onFile ledger has

/-- In every run of such steps, where hashes do not collide, what is read for a key was stored at its path,
what the ledger has as uploaded is there with its hash, and a key is answered from another one's object only
while it is an alias of that, with the object's hash.
-/
theorem reads_are_own (env : TierEnv) (injective : Function.Injective env.sha)
    : ∀ commits world, (tieredSystem env).History (SteadyReads env) {} commits world →
      ReadsOwn env world ∧ ∀ commit ∈ commits, ServesAlias env commit := by
  intro commits world history
  have empty (rel : String) : (({} : LedgerWorld).held env.codec).entries.lookup rel = none := by
    simp [LedgerWorld.held, loadLedger, allLines]
  have initial : (reads env).Holds env {} := by
    refine ⟨⟨[], [], rfl, Or.inl rfl, ⟨[], .none_, .refl _⟩, (by rintro _ ⟨⟩)⟩, fun rel entry has => ?_, ?_, (by rintro _ ⟨⟩)⟩
    · cases ((empty rel).symm.trans has)
    · exact ⟨fun rel entry has => absurd ((empty rel).symm.trans has) (by rintro ⟨⟩),
        fun rel entry _ has => absurd ((empty rel).symm.trans has) (by rintro ⟨⟩), (by rintro _ _ ⟨⟩), (by rintro _ _ ⟨⟩), (by rintro _ _ ⟨⟩), (by rintro _ _ ⟨⟩)⟩
  have whole := @System.History.rule _ _ _ _ ((reads env).Holds env) (ServesAlias env) _ _ _ history
    initial ?_
  · exact ⟨⟨whole.1.core.answers, whole.1.core.uploaded⟩,
      fun commit listed => (whole.2 commit listed).2.2⟩
  · intro op origin _ commit member holds steady
    obtain ⟨after, done, rfl⟩ := mem_commitsFrom_toList.mp member
    have own := fetchesOwn_operate injective holds.core steady
    refine ⟨?_, servesAlias_operate holds.core steady⟩
    refine holds.operate done steady.1 (fun turn turns => ⟨?_, uploading_turns holds turns⟩)
      (fun turn count _ turns crash => ⟨fun part begins _ => ?_, fun _ => ?_⟩) fun restart => ?_
    · exact (genuine_turns holds own turns).applyAll (makes_turns holds turns)
    · have makes := makes_turns holds turns
      exact genuine_dies ((genuine_turns holds own turns).applyAll fun record listed =>
        makes record (begins.subset listed))
    · have onFile := steady.2.1 (Or.inr (by rw [crash]))
      exact genuine_dies (genuine_file (genuine_turns holds own turns) onFile)
    · exact genuine_dies (genuine_file holds.core (steady.2.1 (Or.inl restart)))

-- A read whose object is replaced

/-- Whether two ledgers are the same, by the paths of either. -/
instance decidableSame (first second : Ledger)
    : Decidable (Ledger.Same first second) :=
  decidable_of_iff
    ((∀ rel ∈ first.entries.keys ++ second.entries.keys,
        (first.entries.lookup rel).map unnumbered = (second.entries.lookup rel).map unnumbered)
      ∧ first.day = second.day ∧ first.dayBytes = second.dayBytes) (by
    refine ⟨fun ⟨entries, day, bytes⟩ => ⟨fun rel => ?_, day, bytes⟩,
      fun same => ⟨fun rel _ => same.entries rel, same.day, same.dayBytes⟩⟩
    by_cases listed : rel ∈ first.entries.keys ++ second.entries.keys
    · exact entries rel listed
    · rw [List.mem_append, not_or] at listed
      rw [AList.lookup_eq_none.mpr listed.1, AList.lookup_eq_none.mpr listed.2])

instance decidableOnFile (env : TierEnv) (world : Tiered)
    : Decidable (world.OnFile env) :=
  inferInstanceAs (Decidable (∀ _ ∈ _, _))

instance decidableSteadyReads (env : TierEnv)
    : ∀ (op : TierOp) (world : Tiered), Decidable (SteadyReads env op world)
  | .fetch _, _ => inferInstanceAs (Decidable (_ ∧ (_ → _) ∧ ∀ _ ∈ _, _))
  | .write .., _ | .lose _, _ | .put .., _ | .ledgerPut .., _ | .load, _ | .restart, _ | .drain .., _
  | .scan _, _ | .repair, _ | .mark _, _ | .order, _ | .next _, _ | .open_ .., _ | .send _, _
  | .record _, _ | .get _, _ | .resolve _, _ => inferInstanceAs (Decidable (_ ∧ (_ → _) ∧ True))

theorem spell_injective
    : Function.Injective spell := by
  intro first second same
  refine List.map_injective_iff.mpr (fun byte other same => ?_) (String.ofList_inj.mp same)
  have number := congrArg Char.toNat same
  have small (byte : UInt8) : (Char.ofNat byte.toNat).toNat = byte.toNat := by
    have valid : byte.toNat.isValidChar := Or.inl (byte.toNat_lt.trans (by decide))
    rw [Char.ofNat, dif_pos valid]
    rfl
  rw [small, small] at number
  exact UInt8.toNat_inj.mp number

def unmetered : TierEnv where
  codec := Unary.records
  sha := spell
  bytesPerDay := none

/-- A drain that has one entry to upload, if its file is there. -/
def uploadsOne : List TierOp :=
  [.mark .returned, .order, .next .returned, .open_ true .returned, .send .taken, .record .returned]

/-- The same bytes are put twice, the first uploaded and the other made an alias, whose file is lost. -/
def aliased : List TierOp :=
  [.load, .put (artifact "a") [1], .ledgerPut 0 0 .returned, .put (artifact "b") [1],
    .ledgerPut 0 0 .returned, .drain 0 [], .scan true] ++ uploadsOne
    ++ [.next .returned, .next .returned, .lose (artifact "b")]

/-- The alias is read after the process starts again. -/
theorem reads_are_own_aliased
    : let world := (tieredSystem unmetered).outcome {}
        (aliased ++ [.restart, .load, .resolve (artifact "b"), .fetch 0])
      world.answers = [(artifact "b", [1])] ∧ ReadsOwn unmetered world :=
  ⟨by decide +kernel,
    (reads_are_own unmetered spell_injective _ _ (.whole .start (by decide +kernel))).1⟩

/-- As the alias is read, the other key is put again and uploaded. -/
def replaced : List TierOp :=
  aliased ++ [.resolve (artifact "b"), .put (artifact "a") [2], .ledgerPut 0 0 .returned, .drain 0 [],
    .scan true, .repair] ++ uploadsOne ++ [.fetch 0]

/-- What is then read for the one key are the bytes of the other. -/
theorem an_alias_reads_another
    : ¬ ∀ (env : TierEnv), Function.Injective env.sha →
        ∀ (commits : List (Commit Tiered TierOp)) (world : Tiered),
          (tieredSystem env).History (fun _ _ => True) {} commits world →
            ReadsOwn env world ∧ ∀ commit ∈ commits, ServesAlias env commit := by
  intro own
  have permitted : (tieredSystem unmetered).Permits (fun _ _ => True) {} replaced := by decide +kernel
  have read := (own unmetered spell_injective _ _ (.whole .start permitted)).1.answers (artifact "b") [2]
  exact absurd (read (by decide +kernel)) (by decide +kernel)

end Dagron.Artifact
