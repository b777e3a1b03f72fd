import Dagron.Artifact.LedgerCrashes
import Dagron.Artifact.Tiered

/-! What a step of a tiered store leaves of its ledger, and the rule for what holds of the ledger and the
store together.
-/

namespace Dagron.Artifact

open Dagron.Library

-- The ledger that is held

/-- Whether a later entry of a ledger has a greater number than all that it has. -/
def Ledger.Numbered (ledger : Ledger) : Prop :=
  ∀ rel entry, ledger.entries.lookup rel = some entry → entry.seq < ledger.nextSeq

theorem Ledger.Numbered.apply {ledger : Ledger} (numbered : ledger.Numbered) (record : Record)
    : (ledger.apply record).Numbered := by
  intro rel entry has
  rw [lookup_apply] at has
  cases record with
  | pending | done | uploadedBySha =>
      simp only [madeOf] at has
      have next : ∀ rel, (ledger.detach rel).nextSeq = ledger.nextSeq := fun rel => detach_nextSeq rel
      simp only [Ledger.apply, Ledger.insert, next]
      split_ifs at has with same
      · rw [← Option.some.inj has]
        exact Nat.lt_succ_self _
      · exact Nat.lt_succ_of_lt (numbered rel entry has)
  | day => exact numbered rel entry has
  | forget key =>
      simp only [madeOf] at has
      split_ifs at has
      rw [Ledger.apply, detach_nextSeq]
      exact numbered rel entry has

theorem Ledger.Numbered.applyAll {ledger : Ledger} (numbered : ledger.Numbered) (records : List Record)
    : (ledger.applyAll records).Numbered := by
  induction records generalizing ledger with
  | nil => exact numbered
  | cons record rest ih => exact ih (numbered.apply record)

theorem Ledger.applyAll_single (ledger : Ledger) (record : Record)
    : ledger.applyAll [record] = ledger.apply record :=
  rfl

namespace LedgerWorld

variable (codec : Codec)

/-- The ledger that is held: the one in memory, or else what is read of the file. -/
def held (world : LedgerWorld) : Ledger :=
  world.memory.getD (loadLedger codec world.file)

/-- Whether all that is written is in the file, even where the process ends. -/
def Lands (world : LedgerWorld) (records : List Record) : Outcome → Prop
  | .crashed count =>
      ∀ ledger ∈ world.memory,
        let applied := ledger.applyAll records
        if applied.compacts records then (encodeAll codec applied.snapshot).length < count
        else (encodeAll codec records).length ≤ count
  | _ => True

variable {codec} {world after : LedgerWorld} {lines : List Record} {tail : List UInt8}

theorem held_some {ledger : Ledger} (has : world.memory = some ledger)
    : world.held codec = ledger := by
  rw [held, has]
  rfl

theorem held_none (none_ : world.memory = none)
    : world.held codec = loadLedger codec world.file := by
  rw [held, none_]
  rfl

theorem FileInv.sound (inv : FileInv codec world lines tail)
    : (world.held codec).Sound := by
  cases has : world.memory with
  | some ledger =>
      rw [held_some has]
      exact (inv.memory ledger has).1
  | none =>
      rw [held_none has, inv.file]
      exact sound_load lines inv.torn

theorem FileInv.numbered_load (inv : FileInv codec world lines tail)
    : (loadLedger codec world.file).Numbered := by
  have empty : ({} : Ledger).Numbered := fun rel entry has => by simp at has
  rw [inv.file, load_lines lines inv.torn]
  split_ifs
  · exact empty.applyAll lines
  · exact empty.applyAll lines

/-- A write that does not end with the process leaves the ledger with the records, in memory. -/
theorem memory_persist {records : List Record} {outcome : Outcome}
    (done : world.persist codec records outcome = some after) (goesOn : ∀ count, outcome ≠ .crashed count)
    : ∃ appended suspect,
      after.held codec
        = { (world.held codec).applyAll records with
            appended := appended
            needsCompaction := suspect } := by
  obtain ⟨ledger, has, done⟩ := Option.bind_eq_some_iff.mp done
  simp only [Option.ite_none_left_eq_some] at done
  obtain rfl := Option.some.inj done.2
  rw [held_some has]
  cases outcome with
  | returned | failed count => exact ⟨_, _, rfl⟩
  | crashed count => exact absurd rfl (goesOn count)

/-- A write that ends with the process leaves the ledger with some first records, and with all of them where
the bytes are all written; or the file as it was, where it was to be written anew.
-/
theorem FileInv.held_crash (inv : FileInv codec world lines tail) {records : List Record} {count : Nat}
    (done : world.persist codec records (.crashed count) = some after)
    (steady : Steady codec (.persist records (.crashed count)) world)
    : (∃ part, part <+: records ∧ (world.Lands codec records (.crashed count) → part = records)
        ∧ Ledger.Same (after.held codec) ((world.held codec).applyAll part))
      ∨ ¬ world.Lands codec records (.crashed count)
        ∧ after.held codec = loadLedger codec world.file := by
  obtain ⟨ledger, has, done⟩ := Option.bind_eq_some_iff.mp done
  simp only [Option.ite_none_left_eq_some] at done
  obtain rfl := Option.some.inj done.2
  obtain ⟨sound, -, whole⟩ := inv.memory ledger has
  rw [held_some has, held_none (by rfl)]
  have lands (landed : world.Lands codec records (.crashed count)) := landed ledger has
  cases compact : (ledger.applyAll records).compacts records with
  | true =>
      simp only [compact, if_true, replaceBy] at lands ⊢
      split_ifs with renamed
      · exact Or.inl ⟨records, List.prefix_rfl, fun _ => rfl,
          same_load_snapshot (sound.applyAll records)⟩
      · exact Or.inr ⟨fun landed => renamed (lands landed), rfl⟩
  | false =>
      left
      have clean : ledger.needsCompaction = false := by
        rw [Ledger.compacts, Bool.or_eq_false_iff, needsCompaction_applyAll] at compact
        exact compact.1
      obtain ⟨rfl, same⟩ := whole clean
      simp only [compact, appendTo, inv.file, List.append_nil] at lands ⊢
      have reads (part : List Record) {torn : List UInt8} (left : Torn codec torn)
          : Ledger.Same (loadLedger codec (encodeAll codec lines ++ (encodeAll codec part ++ torn)))
              (ledger.applyAll part) := by
        rw [← List.append_assoc, ← encodeAll_append]
        refine (same_load (lines ++ part) left).trans ?_
        rw [Ledger.applyAll_append]
        exact (same.applyAll part).symm
      by_cases landed : (encodeAll codec records).length ≤ count
      · refine ⟨records, List.prefix_rfl, fun _ => rfl, ?_⟩
        have read := @reads records [] (Or.inl rfl)
        rw [List.append_nil] at read
        rw [List.take_of_length_le landed]
        exact read
      · obtain ⟨part, torn, begins, left, cut⟩ := take_encodeAll (steady ledger has compact)
        refine ⟨part, begins, fun landed' => absurd (lands landed') (by simpa using landed), ?_⟩
        rw [cut]
        exact reads part left

end LedgerWorld

-- Turns

namespace Tiered

/-- What a drain does in a turn, by where it is: the ledger is (ledger) where the turn asks for it. -/
inductive Drains (env : TierEnv) (world : Tiered) (ledger : Ledger)
    : Nat → DrainPhase → TierOp → Turn → Prop
  | found {now : Nat} {key : ArtifactKey} {rest : List ArtifactKey} {records : List Record}
      {readable : Bool} {content : Bytes} (has : world.local_ key.relPath = some content)
      : Drains env world ledger now (.scanning (key :: rest) records) (.scan readable)
          { next := world.at_ now (.scanning rest
              (records ++ [.pending key (env.sha content) content.length now])) }
  | unreadable {now : Nat} {key : ArtifactKey} {rest : List ArtifactKey} {records : List Record}
      {readable : Bool}
      : Drains env world ledger now (.scanning (key :: rest) records) (.scan readable)
          { next := world.at_ now (.scanning rest records) }
  | scanned {now : Nat} {records : List Record} {readable : Bool}
      (has : world.ledger.memory = some ledger)
      : Drains env world ledger now (.scanning [] records) (.scan readable)
          { next := world.at_ now (.stale ledger.staleAliases records) }
  | requeued {now : Nat} {entry : Entry} {rest : List Entry} {records : List Record}
      : Drains env world ledger now (.stale (entry :: rest) records) .repair
          { next := world.at_ now (.stale rest
              (records ++ [.pending entry.key entry.sha entry.bytes now])) }
  | forgotten {now : Nat} {entry : Entry} {rest : List Entry} {records : List Record}
      : Drains env world ledger now (.stale (entry :: rest) records) .repair
          { next := world.at_ now (.stale rest (records ++ [.forget entry.key])) }
  | marked {now : Nat} {records : List Record} {outcome : Outcome}
      (has : world.ledger.memory = some ledger) (today : ledger.day = now / secsPerDay)
      : Drains env world ledger now (.stale [] records) (.mark outcome)
          { next := world.at_ now .ordering, records := records, fails := true }
  | newDay {now : Nat} {records : List Record} {outcome : Outcome}
      (has : world.ledger.memory = some ledger) (other : ledger.day ≠ now / secsPerDay)
      : Drains env world ledger now (.stale [] records) (.mark outcome)
          { next := world.at_ now .ordering, records := records ++ [.day (now / secsPerDay) 0],
            fails := true }
  | ordered {now : Nat} (has : world.ledger.memory = some ledger)
      : Drains env world ledger now .ordering .order
          { next := world.at_ now (.moving ledger.pendingInOrder) }
  | drained {now : Nat} {outcome : Outcome}
      : Drains env world ledger now (.moving []) (.next outcome) { next := world.stops }
  | skipped {now : Nat} {want : Entry} {rest : List Entry} {outcome : Outcome}
      (has : world.ledger.memory = some ledger)
      (other : ∀ cur, ledger.entries.lookup want.key.relPath = some cur →
        cur.state ≠ .pending ∨ cur.sha ≠ want.sha ∨ env.oversize cur.bytes)
      : Drains env world ledger now (.moving (want :: rest)) (.next outcome)
          { next := world.at_ now (.moving rest) }
  | aliased {now : Nat} {want cur canonical : Entry} {rest : List Entry} {outcome : Outcome}
      (has : world.ledger.memory = some ledger)
      (is : ledger.entries.lookup want.key.relPath = some cur) (pending : cur.state = .pending)
      (same : cur.sha = want.sha)
      (uploaded : ledger.canonicalFor cur.sha want.key.relPath = some canonical)
      : Drains env world ledger now (.moving (want :: rest)) (.next outcome)
          { next := world.at_ now (.moving rest)
            records := [.uploadedBySha cur.key cur.sha cur.bytes now canonical.key]
            fails := true }
  | deferred {now : Nat} {want : Entry} {rest : List Entry} {outcome : Outcome}
      : Drains env world ledger now (.moving (want :: rest)) (.next outcome) { next := world.stops }
  | starts {now : Nat} {want cur : Entry} {rest : List Entry} {outcome : Outcome}
      (has : world.ledger.memory = some ledger)
      (is : ledger.entries.lookup want.key.relPath = some cur) (pending : cur.state = .pending)
      (same : cur.sha = want.sha) (fits : env.fits ledger.dayBytes cur.bytes)
      : Drains env world ledger now (.moving (want :: rest)) (.next outcome)
          { next := world.at_ now (.opening cur rest) }
  | closed {now : Nat} {upload : Entry} {order : List Entry} {outcome : Outcome} {readable : Bool}
      : Drains env world ledger now (.opening upload order) (.open_ readable outcome)
          { next := world.stops }
  | opened {now : Nat} {upload : Entry} {order : List Entry} {outcome : Outcome} {readable : Bool}
      {content : Bytes} (has : world.local_ upload.key.relPath = some content)
      : Drains env world ledger now (.opening upload order) (.open_ readable outcome)
          { next := world.at_ now (.sending upload content order) }
  | vanished {now : Nat} {upload : Entry} {order : List Entry} {outcome : Outcome} {readable : Bool}
      (has : world.ledger.memory = some ledger)
      : Drains env world ledger now (.opening upload order) (.open_ readable outcome)
          { next := world.at_ now (.moving order), records := [.forget upload.key], fails := true }
  | sent {now : Nat} {upload : Entry} {content : Bytes} {order : List Entry}
      : Drains env world ledger now (.sending upload content order) (.send .taken)
          { next := { world with
              remote := Function.update world.remote upload.key.relPath (some content)
              drain := some ⟨now, .recording upload content order⟩ } }
  | landed {now : Nat} {upload : Entry} {content : Bytes} {order : List Entry}
      : Drains env world ledger now (.sending upload content order) (.send (.refused true))
          { next := { world with
              remote := Function.update world.remote upload.key.relPath (some content)
              uplinked := world.uplinked ++ [(now / secsPerDay, content.length)]
              drain := none } }
  | refused {now : Nat} {upload : Entry} {content : Bytes} {order : List Entry}
      : Drains env world ledger now (.sending upload content order) (.send (.refused false))
          { next := world.stops }
  | recorded {now : Nat} {upload : Entry} {content : Bytes} {order : List Entry} {outcome : Outcome}
      (has : world.ledger.memory = some ledger) (still : ledger.still upload)
      : Drains env world ledger now (.recording upload content order) (.record outcome)
          { next := (world.moved now content).at_ now (.moving order)
            records :=
              [.done upload.key (env.sha content) content.length now
                  ("remote:" ++ upload.key.relPath),
                .day (now / secsPerDay) (saturatingAdd ledger.dayBytes content.length)]
            fails := true }
  | outrun {now : Nat} {upload : Entry} {content : Bytes} {order : List Entry} {outcome : Outcome}
      (has : world.ledger.memory = some ledger) (other : ¬ ledger.still upload)
      : Drains env world ledger now (.recording upload content order) (.record outcome)
          { next := (world.moved now content).at_ now (.moving order) }

/-- What a turn is: of local files, of a put, of the process, of a drain or of a read. -/
inductive Turns (env : TierEnv) (world : Tiered) : TierOp → Turn → Prop
  | written (key : ArtifactKey) (content : Bytes)
      : Turns env world (.write key content) { next := world.lands key content }
  | lost (key : ArtifactKey)
      : Turns env world (.lose key)
          { next := { world with local_ := Function.update world.local_ key.relPath none } }
  | put (key : ArtifactKey) (content : Bytes)
      : Turns env world (.put key content)
          { next := { world.lands key content with puts := world.puts ++ [(key, content)] } }
  | settled {ledger : Ledger} {key : ArtifactKey} {content : Bytes} {place at_ : Nat}
      {outcome : Outcome} (has : world.ledger.memory = some ledger)
      (waits : world.puts[place]? = some (key, content))
      : Turns env world (.ledgerPut place at_ outcome)
          { next := { world with puts := world.puts.eraseIdx place } }
  | ledgered {ledger : Ledger} {key : ArtifactKey} {content : Bytes} {place at_ : Nat}
      {outcome : Outcome} (has : world.ledger.memory = some ledger)
      (waits : world.puts[place]? = some (key, content))
      : Turns env world (.ledgerPut place at_ outcome)
          { next := { world with puts := world.puts.eraseIdx place }
            records := [.pending key (env.sha content) content.length at_] }
  | begun {now : Nat} {listed : List ArtifactKey} (keys : List ArtifactKey)
      : Turns env world (.drain now listed) { next := world.at_ now (.scanning keys []) }
  | drains {op : TierOp} {turn : Turn} {ledger : Ledger} {now : Nat} {phase : DrainPhase}
      (at_ : world.drain = some ⟨now, phase⟩) (drains : Drains env world ledger now phase op turn)
      : Turns env world op turn
  | got {key : ArtifactKey} {content : Bytes} (has : world.local_ key.relPath = some content)
      : Turns env world (.get key) { next := { world with answers := world.answers ++ [(key, content)] } }
  | resolvedHere {key : ArtifactKey} {content : Bytes}
      (has : world.local_ key.relPath = some content)
      : Turns env world (.resolve key)
          { next := { world with answers := world.answers ++ [(key, content)] } }
  | resolved {ledger : Ledger} {key remoteKey : ArtifactKey} (has : world.ledger.memory = some ledger)
      (asks : ledger.remoteKeyFor key = some remoteKey)
      : Turns env world (.resolve key)
          { next := { world with reads := world.reads ++ [(key, remoteKey)] } }
  | fetched {place : Nat} {key remoteKey : ArtifactKey} {content : Bytes}
      (waits : world.reads[place]? = some (key, remoteKey))
      (has : world.remote remoteKey.relPath = some content)
      : Turns env world (.fetch place)
          { next := { world with
              reads := world.reads.eraseIdx place
              answers := world.answers ++ [(key, content)] } }
  | missed {place : Nat}
      : Turns env world (.fetch place) { next := { world with reads := world.reads.eraseIdx place } }

variable {env : TierEnv} {world after : Tiered} {op : TierOp} {turn : Turn}

theorem drains_scan {readable : Bool} (turns : world.scan env readable = some turn)
    : ∃ ledger now phase, world.drain = some ⟨now, phase⟩
      ∧ Drains env world ledger now phase (.scan readable) turn := by
  obtain ⟨⟨now, phase⟩, at_, turns⟩ := Option.bind_eq_some_iff.mp turns
  split at turns
  case h_1 key rest records same =>
    cases same
    cases has : (world.local_ key.relPath).filter fun _ => readable with
    | some content =>
        rw [has] at turns
        obtain rfl := Option.some.inj turns
        exact ⟨{}, now, _, at_, .found (Option.filter_eq_some_iff.mp has).1⟩
    | none =>
        rw [has] at turns
        obtain rfl := Option.some.inj turns
        exact ⟨{}, now, _, at_, .unreadable⟩
  case h_2 records same =>
    cases same
    obtain ⟨ledger, has, rfl⟩ := Option.map_eq_some_iff.mp turns
    exact ⟨ledger, now, _, at_, .scanned has⟩
  case h_3 => exact absurd turns nofun

theorem drains_repair (turns : world.repair = some turn)
    : ∃ ledger now phase, world.drain = some ⟨now, phase⟩
      ∧ Drains env world ledger now phase .repair turn := by
  obtain ⟨⟨now, phase⟩, at_, turns⟩ := Option.bind_eq_some_iff.mp turns
  split at turns
  case h_1 entry rest records same =>
    cases same
    obtain rfl := Option.some.inj turns
    refine ⟨{}, now, _, at_, ?_⟩
    split_ifs
    · exact .requeued
    · exact .forgotten
  case h_2 => exact absurd turns nofun

theorem drains_mark {outcome : Outcome} (turns : world.mark = some turn)
    : ∃ ledger now phase, world.drain = some ⟨now, phase⟩
      ∧ Drains env world ledger now phase (.mark outcome) turn := by
  obtain ⟨ledger, has, turns⟩ := Option.bind_eq_some_iff.mp turns
  obtain ⟨⟨now, phase⟩, at_, turns⟩ := Option.bind_eq_some_iff.mp turns
  split at turns
  case h_1 records same =>
    cases same
    obtain rfl := Option.some.inj turns
    refine ⟨ledger, now, _, at_, ?_⟩
    split_ifs with other
    · exact .newDay has other
    · exact .marked has (not_not.mp other)
  case h_2 => exact absurd turns nofun

theorem drains_order (turns : world.order = some turn)
    : ∃ ledger now phase, world.drain = some ⟨now, phase⟩
      ∧ Drains env world ledger now phase .order turn := by
  obtain ⟨ledger, has, turns⟩ := Option.bind_eq_some_iff.mp turns
  obtain ⟨⟨now, phase⟩, at_, turns⟩ := Option.bind_eq_some_iff.mp turns
  split at turns
  case h_1 same =>
    cases same
    obtain rfl := Option.some.inj turns
    exact ⟨ledger, now, _, at_, .ordered has⟩
  case h_2 => exact absurd turns nofun

theorem drains_next {outcome : Outcome} (turns : world.next env = some turn)
    : ∃ ledger now phase, world.drain = some ⟨now, phase⟩
      ∧ Drains env world ledger now phase (.next outcome) turn := by
  obtain ⟨ledger, has, turns⟩ := Option.bind_eq_some_iff.mp turns
  obtain ⟨⟨now, phase⟩, at_, turns⟩ := Option.bind_eq_some_iff.mp turns
  refine ⟨ledger, now, phase, at_, ?_⟩
  split at turns
  case h_1 same =>
    cases same
    obtain rfl := Option.some.inj turns
    exact .drained
  case h_3 => exact absurd turns nofun
  case h_2 want rest same =>
    cases same
    cases is : ledger.entries.lookup want.key.relPath with
    | none =>
        simp only [is] at turns
        obtain rfl := Option.some.inj turns
        exact .skipped has fun cur is' => absurd (is.symm.trans is') nofun
    | some cur =>
        simp only [is] at turns
        by_cases other : cur.state ≠ .pending ∨ cur.sha ≠ want.sha
        · rw [if_pos other] at turns
          obtain rfl := Option.some.inj turns
          refine .skipped has fun cur' is' => ?_
          obtain rfl := Option.some.inj (is.symm.trans is')
          exact other.imp_right Or.inl
        · rw [if_neg other] at turns
          simp only [not_or, not_not] at other
          split at turns
          case h_1 canonical uploaded =>
            obtain rfl := Option.some.inj turns
            exact .aliased has is other.1 other.2 uploaded
          case h_2 =>
            split_ifs at turns with oversize noBudget
            · obtain rfl := Option.some.inj turns
              refine .skipped has fun cur' is' => ?_
              obtain rfl := Option.some.inj (is.symm.trans is')
              exact Or.inr (Or.inr oversize)
            · obtain rfl := Option.some.inj turns
              exact .deferred
            · obtain rfl := Option.some.inj turns
              exact .starts has is other.1 other.2 (by simpa using noBudget)

theorem drains_open {outcome : Outcome} {readable : Bool} (turns : world.open_ readable = some turn)
    : ∃ ledger now phase, world.drain = some ⟨now, phase⟩
      ∧ Drains env world ledger now phase (.open_ readable outcome) turn := by
  obtain ⟨⟨now, phase⟩, at_, turns⟩ := Option.bind_eq_some_iff.mp turns
  split at turns
  case h_1 upload order same =>
    cases same
    split_ifs at turns
    · obtain rfl := Option.some.inj turns
      exact ⟨{}, now, _, at_, .closed⟩
    · split at turns
      case h_1 content has =>
        obtain rfl := Option.some.inj turns
        exact ⟨{}, now, _, at_, .opened has⟩
      case h_2 =>
        obtain ⟨ledger, has, rfl⟩ := Option.map_eq_some_iff.mp turns
        exact ⟨ledger, now, _, at_, .vanished has⟩
  case h_2 => exact absurd turns nofun

theorem drains_send {sent : Sent} (turns : world.send sent = some turn)
    : ∃ ledger now phase, world.drain = some ⟨now, phase⟩
      ∧ Drains env world ledger now phase (.send sent) turn := by
  obtain ⟨⟨now, phase⟩, at_, turns⟩ := Option.bind_eq_some_iff.mp turns
  split at turns
  case h_1 upload content order same =>
    cases same
    refine ⟨{}, now, _, at_, ?_⟩
    cases sent with
    | taken =>
        obtain rfl := Option.some.inj turns
        exact .sent
    | refused landed =>
        cases landed with
        | true =>
            obtain rfl := Option.some.inj turns
            exact .landed
        | false =>
            obtain rfl := Option.some.inj turns
            exact .refused
  case h_2 => exact absurd turns nofun

theorem drains_record {outcome : Outcome} (turns : world.record env = some turn)
    : ∃ ledger now phase, world.drain = some ⟨now, phase⟩
      ∧ Drains env world ledger now phase (.record outcome) turn := by
  obtain ⟨ledger, has, turns⟩ := Option.bind_eq_some_iff.mp turns
  obtain ⟨⟨now, phase⟩, at_, turns⟩ := Option.bind_eq_some_iff.mp turns
  split at turns
  case h_1 upload content order same =>
    cases same
    refine ⟨ledger, now, _, at_, ?_⟩
    split_ifs at turns with still
    · obtain rfl := Option.some.inj turns
      exact .recorded has still
    · obtain rfl := Option.some.inj turns
      exact .outrun has still
  case h_2 => exact absurd turns nofun

theorem turns_of_turn (turns : world.turn env op = some turn) (load : op ≠ .load) (restart : op ≠ .restart)
    : Turns env world op turn := by
  cases op with
  | load => exact absurd rfl load
  | restart => exact absurd rfl restart
  | write key content =>
      obtain rfl := Option.some.inj turns
      exact .written key content
  | lose key =>
      obtain rfl := Option.some.inj turns
      exact .lost key
  | put key content =>
      simp only [Tiered.turn, Option.ite_none_left_eq_some] at turns
      obtain rfl := Option.some.inj turns.2
      exact .put key content
  | ledgerPut place at_ outcome =>
      obtain ⟨ledger, has, turns⟩ := Option.bind_eq_some_iff.mp turns
      obtain ⟨⟨key, content⟩, waits, rfl⟩ := Option.map_eq_some_iff.mp turns
      dsimp only
      split_ifs
      · exact .settled has waits
      · exact .ledgered has waits
  | drain now listed =>
      obtain ⟨ledger, has, turns⟩ := Option.bind_eq_some_iff.mp turns
      simp only [Option.ite_none_left_eq_some] at turns
      obtain rfl := Option.some.inj turns.2
      exact .begun _
  | scan readable =>
      obtain ⟨ledger, now, phase, at_, drains⟩ := drains_scan turns
      exact .drains at_ drains
  | repair =>
      obtain ⟨ledger, now, phase, at_, drains⟩ := @drains_repair env _ _ turns
      exact .drains at_ drains
  | mark outcome =>
      obtain ⟨ledger, now, phase, at_, drains⟩ := @drains_mark env _ _ outcome turns
      exact .drains at_ drains
  | order =>
      obtain ⟨ledger, now, phase, at_, drains⟩ := @drains_order env _ _ turns
      exact .drains at_ drains
  | next outcome =>
      obtain ⟨ledger, now, phase, at_, drains⟩ := @drains_next env _ _ outcome turns
      exact .drains at_ drains
  | open_ readable outcome =>
      obtain ⟨ledger, now, phase, at_, drains⟩ := @drains_open env _ _ outcome _ turns
      exact .drains at_ drains
  | send sent =>
      obtain ⟨ledger, now, phase, at_, drains⟩ := @drains_send env _ _ sent turns
      exact .drains at_ drains
  | record outcome =>
      obtain ⟨ledger, now, phase, at_, drains⟩ := @drains_record env _ _ outcome turns
      exact .drains at_ drains
  | get key =>
      obtain ⟨content, has, rfl⟩ := Option.map_eq_some_iff.mp turns
      exact .got has
  | resolve key =>
      simp only [Tiered.turn, resolve] at turns
      split at turns
      · obtain rfl := Option.some.inj turns
        exact .resolvedHere ‹_›
      · obtain ⟨ledger, has, turns⟩ := Option.bind_eq_some_iff.mp turns
        obtain ⟨remoteKey, asks, rfl⟩ := Option.map_eq_some_iff.mp turns
        exact .resolved has asks
  | fetch place =>
      obtain ⟨⟨key, remoteKey⟩, waits, rfl⟩ := Option.map_eq_some_iff.mp turns
      cases has : world.remote remoteKey.relPath with
      | some content =>
          simp only [has]
          exact .fetched waits has
      | none =>
          simp only [has]
          exact .missed

theorem Turns.ledger (turns : Turns env world op turn)
    : turn.next.ledger = world.ledger := by
  cases turns with
  | drains at_ drains => cases drains <;> rfl
  | _ => rfl

variable (env) in
/-- Whether no write of a step is cut just before the end of a record's line. -/
def Uncut (op : TierOp) (world : Tiered) : Prop :=
  ∀ turn ∈ world.turn env op,
    LedgerWorld.Steady env.codec (.persist turn.records op.outcome) world.ledger

theorem dies_uplinked (none_ : world.unrecorded = [])
    : world.dies.uplinked = world.uplinked := by
  rw [dies, none_, List.append_nil]

/-- How a turn ends: it goes on with all its records in memory, with the drain or without, or the process
ends in its write.
-/
theorem finish_cases {outcome : Outcome} (done : world.finish env turn outcome = some after)
    : turn.records = [] ∧ after = turn.next
      ∨ ∃ ledger, world.ledger.persist env.codec turn.records outcome = some ledger
        ∧ ((∀ count, outcome ≠ .crashed count)
            ∧ (after = { turn.next with ledger := ledger }
              ∨ after = { turn.next with ledger := ledger }.stops)
          ∨ (∃ count, outcome = .crashed count) ∧ after = { turn.next with ledger := ledger }.dies) := by
  by_cases none_ : turn.records = []
  · rw [finish, if_pos none_] at done
    exact Or.inl ⟨none_, (Option.some.inj done).symm⟩
  · rw [finish, if_neg none_] at done
    obtain ⟨ledger, written, rfl⟩ := Option.map_eq_some_iff.mp done
    refine Or.inr ⟨ledger, written, ?_⟩
    cases outcome with
    | returned => exact Or.inl ⟨nofun, Or.inl rfl⟩
    | failed count =>
        refine Or.inl ⟨nofun, ?_⟩
        dsimp only
        split_ifs
        · exact Or.inr rfl
        · exact Or.inl rfl
    | crashed count => exact Or.inr ⟨⟨count, rfl⟩, rfl⟩

/-- What is there of a step's drain and of its ledger in memory, as long as the process goes on. -/
theorem operate_alive (done : world.operate env op = some after) (load : op ≠ .load)
    (restart : op ≠ .restart)
    : ∃ turn, Turns env world op turn
      ∧ (∀ drain, after.drain = some drain → turn.next.drain = some drain)
      ∧ ∀ ledger, after.ledger.memory = some ledger →
        ledger.entries = ((world.ledger.held env.codec).applyAll turn.records).entries := by
  obtain ⟨turn, turned, done⟩ := Option.bind_eq_some_iff.mp done
  have turns := turns_of_turn turned load restart
  refine ⟨turn, turns, ?_⟩
  obtain ⟨none_, rfl⟩ | ⟨file, written, ends⟩ := finish_cases done
  · refine ⟨fun drain is => is, fun ledger has => ?_⟩
    rw [turns.ledger] at has
    rw [none_, LedgerWorld.held_some has]
    rfl
  · obtain ⟨alive, ends⟩ | ⟨-, rfl⟩ := ends
    · obtain ⟨appended, suspect, same⟩ := LedgerWorld.memory_persist written alive
      have memory (ledger : Ledger) (has : file.memory = some ledger)
          : ledger.entries = ((world.ledger.held env.codec).applyAll turn.records).entries := by
        rw [LedgerWorld.held_some has] at same
        rw [same]
      obtain rfl | rfl := ends
      · exact ⟨fun drain is => is, memory⟩
      · exact ⟨nofun, memory⟩
    · exact ⟨nofun, nofun⟩

end Tiered

-- What holds of the ledger and the store

/-- What may hold of the ledger that is held and of the store: (core) is of its entries and outlives the
process, and (running) is of the drain.
-/
structure TierInvariant where
  core
    : Ledger → Tiered → Prop
  running
    : Ledger → Tiered → Prop
  same
    : ∀ {first second world}, Ledger.Same first second → core second world → core first world
  flagged
    : ∀ {ledger world} appended suspect, running ledger world →
      running { ledger with appended := appended, needsCompaction := suspect } world
  core_ledger
    : ∀ {ledger world} file, core ledger world → core ledger { world with ledger := file }
  running_ledger
    : ∀ {ledger world} file, running ledger world → running ledger { world with ledger := file }
  core_stops
    : ∀ {ledger world}, core ledger world → core ledger world.stops
  running_stops
    : ∀ {ledger world}, world.drain = none → running ledger world

namespace TierInvariant

open Tiered

variable (inv : TierInvariant) (env : TierEnv)

/-- What holds of a store, with what its ledger's file is like. -/
structure Holds (world : Tiered) : Prop where
  file
    : ∃ lines tail, LedgerWorld.FileInv env.codec world.ledger lines tail
  numbered
    : (world.ledger.held env.codec).Numbered
  core
    : inv.core (world.ledger.held env.codec) world
  running
    : inv.running (world.ledger.held env.codec) world

variable {inv env} {world after : Tiered} {op : TierOp}

/-- The rule for a step: what its records do to the ledger, all of them where it goes on, and some first ones
where the process ends.
-/
theorem Holds.operate (holds : inv.Holds env world) (done : world.operate env op = some after)
    (uncut : Uncut env op world)
    (goesOn : ∀ turn, Turns env world op turn →
      inv.core ((world.ledger.held env.codec).applyAll turn.records) turn.next
        ∧ inv.running ((world.ledger.held env.codec).applyAll turn.records) turn.next)
    (crashes : ∀ turn count, world.turn env op = some turn → Turns env world op turn →
      op.outcome = .crashed count →
      (∀ part, part <+: turn.records →
        (world.ledger.Lands env.codec turn.records (.crashed count) → part = turn.records) →
        inv.core ((world.ledger.held env.codec).applyAll part) turn.next.dies)
      ∧ (¬ world.ledger.Lands env.codec turn.records (.crashed count) →
        inv.core (loadLedger env.codec world.ledger.file) turn.next.dies))
    (restarts : op = .restart → inv.core (loadLedger env.codec world.ledger.file) world.dies)
    : inv.Holds env after := by
  obtain ⟨lines, tail, file⟩ := holds.file
  obtain ⟨turn, turns, done⟩ := Option.bind_eq_some_iff.mp done
  by_cases restart : op = .restart
  · subst restart
    obtain rfl := Option.some.inj turns
    obtain rfl := Option.some.inj done
    exact ⟨⟨lines, tail, { file with memory := nofun }⟩, file.numbered_load, restarts rfl,
      inv.running_stops rfl⟩
  by_cases load : op = .load
  · subst load
    obtain ⟨ledger, loaded, rfl⟩ := Option.map_eq_some_iff.mp turns
    obtain rfl := Option.some.inj done
    have same : ledger.held env.codec = world.ledger.held env.codec := by
      simp only [LedgerWorld.operate, Option.ite_none_right_eq_some] at loaded
      obtain ⟨none_, loaded⟩ := loaded
      obtain rfl := Option.some.inj loaded
      rw [LedgerWorld.held_none (Option.isNone_iff_eq_none.mp none_)]
      rfl
    refine ⟨⟨lines, tail, file.load loaded⟩, ?_, ?_, ?_⟩
    · exact same ▸ holds.numbered
    · exact inv.core_ledger _ (same ▸ holds.core)
    · exact inv.running_ledger _ (same ▸ holds.running)
  have steady := uncut turn turns
  have turned := turns
  have turns := turns_of_turn turned load restart
  obtain ⟨none_, rfl⟩ | ⟨ledger, written, ends⟩ := finish_cases done
  · have next := goesOn turn turns
    rw [none_] at next
    exact ⟨turns.ledger ▸ holds.file, turns.ledger ▸ holds.numbered, turns.ledger ▸ next.1,
      turns.ledger ▸ next.2⟩
  · obtain ⟨lines', tail', file'⟩ := file.persist written steady
    obtain ⟨alive, ends⟩ | ⟨⟨count, crash⟩, rfl⟩ := ends
    · obtain ⟨appended, suspect, same⟩ := LedgerWorld.memory_persist written alive
      obtain ⟨core, running⟩ := goesOn turn turns
      have numbered : (ledger.held env.codec).Numbered := by
        rw [same]
        exact holds.numbered.applyAll turn.records
      have core : inv.core (ledger.held env.codec) { turn.next with ledger := ledger } := by
        rw [same]
        refine inv.core_ledger ledger (inv.same ?_ core)
        exact ⟨fun _ => rfl, rfl, rfl⟩
      have running : inv.running (ledger.held env.codec) { turn.next with ledger := ledger } := by
        rw [same]
        exact inv.running_ledger ledger (inv.flagged appended suspect running)
      obtain rfl | rfl := ends
      · exact ⟨⟨lines', tail', file'⟩, numbered, core, running⟩
      · exact ⟨⟨lines', tail', file'⟩, numbered, inv.core_stops core, inv.running_stops rfl⟩
    · rw [crash] at written steady
      have dead : ({ ledger with memory := none } : LedgerWorld) = ledger := by
        obtain ⟨before, has, written⟩ := Option.bind_eq_some_iff.mp written
        simp only [Option.ite_none_left_eq_some] at written
        obtain rfl := Option.some.inj written.2
        rfl
      obtain ⟨landed, lost⟩ := crashes turn count turned turns crash
      have core : inv.core (ledger.held env.codec) { turn.next with ledger := ledger }.dies := by
        obtain ⟨part, begins, whole, same⟩ | ⟨unlanded, same⟩ := file.held_crash written steady
        · exact inv.core_ledger _ (inv.same same (landed part begins whole))
        · rw [same]
          exact inv.core_ledger _ (lost unlanded)
      have numbered : (ledger.held env.codec).Numbered := by
        rw [← dead]
        exact file'.numbered_load
      rw [← dead] at core file' numbered ⊢
      exact ⟨⟨lines', tail', file'⟩, numbered, core, inv.running_stops rfl⟩

end TierInvariant

end Dagron.Artifact
