import Dagron.Artifact.EncryptedWhole
import Dagron.Artifact.Rewrap
import Mathlib.Logic.Function.Basic
import Mathlib.Logic.Relation

/-! The rotation of a store's keys, one object after the other, among writers of the same objects:
each object is read, its key wrapped anew and the object written back, with nothing held in between.
-/

namespace Dagron.Artifact

open Dagron.Library Dagron.Crypto

-- The store and the sweep

/-- Where a sweep is: at none, with keys to come, or with an object in hand; (stale) where the
object was put again since it was read.
-/
inductive Sweep (Key : Type) where
  | idle
  | pending (rest : List Key)
  | holding (key : Key) (raw : List UInt8) (stale : Bool) (rest : List Key)
  | returned

def Sweep.Running {Key : Type} : Sweep Key → Prop
  | .idle => False
  | .pending _ => True
  | .holding _ _ _ _ => True
  | .returned => False

/-- An object was put: if it is in the sweep's hand, it is stale. -/
def Sweep.mark {Key : Type} [DecidableEq Key] (key : Key) : Sweep Key → Sweep Key
  | .holding held raw stale rest => .holding held raw (stale || decide (held = key)) rest
  | other => other

/-- An object that is under the old key is yet to be wrapped anew, unless no sweep is under way. -/
def Sweep.Awaits {Key : Type} : Sweep Key → Key → Prop
  | .idle, _ => True
  | .pending rest, key => key ∈ rest
  | .holding held _ stale rest, key => held = key ∧ stale = false ∨ key ∈ rest
  | .returned, _ => False

/-- What is stored, and what was put last and not deleted since; what of it was overwritten since by
what a sweep had read before, or by a write that was cut short.
-/
structure World (Key : Type) where
  stored
    : Key → Option (List UInt8)
  latest
    : Key → Option (List UInt8)
  harmed
    : Key → Prop
  sweep
    : Sweep Key

section Operations

variable {Key : Type} [DecidableEq Key] (world : World Key) (key : Key)

def World.put (blob content : List UInt8) : World Key where
  stored :=
    Function.update world.stored key (some blob)
  latest :=
    Function.update world.latest key (some content)
  harmed :=
    Function.update world.harmed key False
  sweep :=
    world.sweep.mark key

def World.delete : World Key :=
  { world with
    stored := Function.update world.stored key none
    latest := Function.update world.latest key none }

def World.tear (left : Option (List UInt8)) : World Key :=
  { world with
    stored := Function.update world.stored key left
    harmed := Function.update world.harmed key True }

/-- A sweep writes back what it has in hand, with its key wrapped anew. -/
def World.writeBack (rotated : List UInt8) (stale : Bool) (rest : List Key) : World Key where
  stored :=
    Function.update world.stored key (some rotated)
  latest :=
    world.latest
  harmed :=
    if stale then Function.update world.harmed key True else world.harmed
  sweep :=
    .pending rest

end Operations

/-- One step of a store that encrypts under a new key: of its writers, or of the sweep that rotates
its objects from an old one.
-/
inductive Step {Key Draw : Type} [DecidableEq Key] (cipher : Cipher) (old new : KeyProvider Draw)
    (world : World Key) : World Key → Prop
  | put (key : Key) (object : Written Draw) {blob : List UInt8}
      (written : object.write cipher new = .ok blob)
      : Step cipher old new world (world.put key blob object.form.content)
  | delete (key : Key)
      : Step cipher old new world (world.delete key)
  | tear (key : Key) (left : Option (List UInt8))
      : Step cipher old new world (world.tear key left)
  | list (keys : List Key) (ended : ¬ world.sweep.Running)
      (all : ∀ key, world.stored key ≠ none → key ∈ keys)
      : Step cipher old new world { world with sweep := .pending keys }
  | read {key : Key} {rest : List Key} {raw : List UInt8}
      (next : world.sweep = .pending (key :: rest)) (found : world.stored key = some raw)
      : Step cipher old new world { world with sweep := .holding key raw false rest }
  | writeBack {key : Key} {raw rotated : List UInt8} {stale : Bool} {rest : List Key} (draw : Draw)
      (held : world.sweep = .holding key raw stale rest)
      (ok : (rewrap old new draw raw).result = .ok rotated)
      : Step cipher old new world (world.writeBack key rotated stale rest)
  -- The old key did not unwrap it, or its provider was out, as it can be at any time.
  | skip {key : Key} {raw again : List UInt8} {stale : Bool} {rest : List Key} (draw : Draw)
      (held : world.sweep = .holding key raw stale rest)
      (current : (rewrap new new draw raw).result = .ok again)
      : Step cipher old new world { world with sweep := .pending rest }
  | finish (none_ : world.sweep = .pending [])
      : Step cipher old new world { world with sweep := .returned }
  -- An error of the store, or of both attempts, or the end of the process.
  | interrupt
      : Step cipher old new world { world with sweep := .idle }

-- What every step keeps

/-- A provider that objects are rotated to is sound, and unwraps nothing apart from the one that
they are rotated from.
-/
structure Rotates {Draw : Type} (cipher : Cipher) (old new : KeyProvider Draw) : Prop
    extends Sound cipher new where
  agree {wrapped : List UInt8} {dek other : DataKey}
    : old.unwrap wrapped = some dek → new.unwrap wrapped = some other → dek = other

section Steps

variable {Key Draw : Type} (cipher : Cipher) (old new : KeyProvider Draw)

/-- An object that was put and not harmed since is read as it was put, under the new key, or under
the old one where it is yet to be wrapped anew; and what a sweep has of it in hand is what is stored.
-/
structure Preserved (world : World Key) (key : Key) : Prop where
  reads {content : List UInt8}
    : world.latest key = some content → ¬ world.harmed key →
      ∃ raw, world.stored key = some raw ∧ (Readable cipher new raw content
        ∨ Readable cipher old raw content ∧ world.sweep.Awaits key)
  held {raw content : List UInt8} {rest : List Key}
    : world.sweep = .holding key raw false rest → world.latest key = some content →
      ¬ world.harmed key → world.stored key = some raw

variable {cipher old new} {world after : World Key} {key other : Key}

/-- An object of which nothing changes is kept, if it still awaits the sweep where it is not read
under the new key, and what the sweep has of it in hand is what is stored.
-/
theorem Preserved.same (kept : Preserved cipher old new world key)
    (stored : after.stored key = world.stored key) (latest : after.latest key = world.latest key)
    (harmed : after.harmed key = world.harmed key)
    (awaits : ∀ {raw content}, world.stored key = some raw → Readable cipher old raw content →
      world.sweep.Awaits key → Readable cipher new raw content ∨ after.sweep.Awaits key)
    (held : ∀ {raw rest}, after.sweep = .holding key raw false rest →
      world.sweep = .holding key raw false rest ∨ world.stored key = some raw)
    : Preserved cipher old new after key where
  reads {content} put unharmed := by
    rw [latest] at put
    rw [harmed] at unharmed
    obtain ⟨raw, there, reads⟩ := kept.reads put unharmed
    refine ⟨raw, stored.trans there, ?_⟩
    rcases reads with reads | ⟨reads, waited⟩
    · exact .inl reads
    · exact (awaits there reads waited).imp_right (And.intro reads)
  held {raw content rest} holding put unharmed := by
    rw [latest] at put
    rw [harmed] at unharmed
    rw [stored]
    rcases held holding with before | there
    · exact kept.held before put unharmed
    · exact there

theorem Preserved.of_nothing (nothing : world.latest key = none ∨ world.harmed key)
    : Preserved cipher old new world key where
  reads put unharmed := by
    rcases nothing with none_ | harmed
    · cases none_.symm.trans put
    · exact absurd harmed unharmed
  held _ put unharmed := by
    rcases nothing with none_ | harmed
    · cases none_.symm.trans put
    · exact absurd harmed unharmed

variable [DecidableEq Key]

theorem Sweep.awaits_mark {sweep : Sweep Key} (apart : other ≠ key) (awaits : sweep.Awaits other)
    : (sweep.mark key).Awaits other := by
  cases sweep with
  | idle => trivial
  | pending rest => exact awaits
  | returned => exact awaits
  | holding held raw stale rest =>
      rcases awaits with ⟨rfl, rfl⟩ | listed
      · exact .inl ⟨rfl, by simp [apart]⟩
      · exact .inr listed

theorem Sweep.holding_of_mark {sweep : Sweep Key} {held : Key} {raw : List UInt8} {rest : List Key}
    (marked : sweep.mark key = .holding held raw false rest)
    : sweep = .holding held raw false rest ∧ held ≠ key := by
  cases sweep with
  | idle | pending rest | returned => cases marked
  | holding other raw stale rest =>
      obtain ⟨rfl, rfl, fresh, rfl⟩ := Sweep.holding.inj marked
      rw [Bool.or_eq_false_iff, decide_eq_false_iff_not] at fresh
      exact ⟨by rw [fresh.1], fresh.2⟩

theorem readable_of_write {object : Written Draw} {blob : List UInt8} (sound : Sound cipher new)
    (written : object.write cipher new = .ok blob)
    : Readable cipher new blob object.form.content := by
  obtain ⟨named, wrapped, small, unwraps, carries⟩ := Written.carried_of_write sound written
  exact ⟨wrapped, _, named, small, unwraps, carries.mono (fun opened => sound.opens opened.2)⟩

theorem kept_put {object : Written Draw} {blob : List UInt8} (kept : Preserved cipher old new world other)
    (sound : Sound cipher new) (written : object.write cipher new = .ok blob)
    : Preserved cipher old new (world.put key blob object.form.content) other := by
  by_cases same : other = key
  · subst same
    constructor
    case reads =>
      intro content put _
      have put : Function.update world.latest other (some object.form.content) other = some content :=
        put
      rw [Function.update_self] at put
      obtain rfl := Option.some.inj put
      exact ⟨blob, Function.update_self .., .inl (readable_of_write sound written)⟩
    case held =>
      intro raw content rest holding _ _
      exact absurd rfl (Sweep.holding_of_mark holding).2
  · refine kept.same (Function.update_of_ne same ..) (Function.update_of_ne same ..)
      (Function.update_of_ne same ..) ?_ ?_
    · exact fun _ _ waited => .inr (Sweep.awaits_mark same waited)
    · exact fun holding => .inl (Sweep.holding_of_mark holding).1

theorem kept_delete (kept : Preserved cipher old new world other)
    : Preserved cipher old new (world.delete key) other := by
  by_cases same : other = key
  · subst same
    exact .of_nothing (.inl (Function.update_self ..))
  · exact kept.same (Function.update_of_ne same ..) (Function.update_of_ne same ..) rfl
      (fun _ _ => .inr) .inl

theorem kept_tear {left : Option (List UInt8)} (kept : Preserved cipher old new world other)
    : Preserved cipher old new (world.tear key left) other := by
  by_cases same : other = key
  · subst same
    have harmed : Function.update world.harmed other True other := by
      rw [Function.update_self]
      trivial
    exact .of_nothing (.inr harmed)
  · exact kept.same (Function.update_of_ne same ..) rfl (Function.update_of_ne same ..)
      (fun _ _ => .inr) .inl

/-- What is written back of an object that was not put since it was read is what it was put as,
under the new key.
-/
theorem kept_writeBack {raw rotated : List UInt8} {stale : Bool} {rest : List Key} {draw : Draw}
    (kept : Preserved cipher old new world other) (rotates : Rotates cipher old new)
    (held : world.sweep = .holding key raw stale rest)
    (ok : (rewrap old new draw raw).result = .ok rotated)
    : Preserved cipher old new (world.writeBack key rotated stale rest) other := by
  by_cases same : other = key
  · subst same
    cases stale with
    | true =>
        have harmed : Function.update world.harmed other True other := by
          rw [Function.update_self]
          trivial
        exact .of_nothing (.inr harmed)
    | false =>
        constructor
        case held => nofun
        case reads =>
          intro content put unharmed
          have stored := kept.held held put unharmed
          obtain ⟨_, there, reads⟩ := kept.reads put unharmed
          obtain rfl := Option.some.inj (stored.symm.trans there)
          refine ⟨rotated, Function.update_self .., .inl ?_⟩
          rw [readable_rewrap_iff rotates.toSound ok]
          rcases reads with reads | ⟨reads, _⟩
          · exact readable_of_rewrap (fun news olds => (rotates.agree olds news).symm) ok reads
          · exact reads
  · refine kept.same (Function.update_of_ne same ..) rfl ?_ ?_ nofun
    · cases stale with
      | true => exact Function.update_of_ne same ..
      | false => rfl
    · intro _ _ _ _ waited
      rw [held] at waited
      rcases waited with ⟨rfl, _⟩ | listed
      · exact absurd rfl same
      · exact .inr listed

theorem Step.kept (step : Step cipher old new world after) (rotates : Rotates cipher old new)
    (kept : ∀ key, Preserved cipher old new world key)
    : ∀ key, Preserved cipher old new after key := by
  intro other
  cases step with
  | put key object written => exact kept_put (kept other) rotates.toSound written
  | delete key => exact kept_delete (kept other)
  | tear key left => exact kept_tear (kept other)
  | list keys ended all =>
      refine (kept other).same rfl rfl rfl ?_ nofun
      intro raw content stored _ _
      exact .inr (all other (by simp [stored]))
  | @read key rest raw next found =>
      refine (kept other).same rfl rfl rfl ?_ ?_
      · intro _ _ _ _ waited
        rw [next] at waited
        rcases List.mem_cons.mp waited with rfl | listed
        · exact .inr (.inl ⟨rfl, rfl⟩)
        · exact .inr (.inr listed)
      · intro _ _ holding
        obtain ⟨rfl, rfl, _⟩ := Sweep.holding.inj holding
        exact .inr found
  | writeBack draw held ok => exact kept_writeBack (kept other) rotates held ok
  | @skip key raw again stale rest draw held current =>
      constructor
      case held => nofun
      case reads =>
        intro content put unharmed
        obtain ⟨there, stored, reads⟩ := (kept other).reads put unharmed
        refine ⟨there, stored, ?_⟩
        rcases reads with reads | ⟨reads, waited⟩
        · exact .inl reads
        rw [held] at waited
        rcases waited with ⟨rfl, rfl⟩ | listed
        · obtain rfl := Option.some.inj (((kept key).held held put unharmed).symm.trans stored)
          exact .inl (readable_of_rewrap rotates.agree current reads)
        · exact .inr ⟨reads, listed⟩
  | finish none_ =>
      refine (kept other).same rfl rfl rfl ?_ nofun
      intro _ _ _ _ waited
      rw [none_] at waited
      cases waited
  | interrupt =>
      exact (kept other).same rfl rfl rfl (fun _ _ _ => .inr trivial) nofun

/-- A rotation loses nothing that is not harmed: in whatever order a store's writers and the sweeps
of its objects step, each object that was put, and not written over since by what a sweep read before
or by a write that was cut short, is read as it was put last, under one of the keys; where a sweep
has returned, under the new one; and wrapping a key anew changes nothing that is read.
-/
theorem rotation_loses_nothing {start : World Key} (rotates : Rotates cipher old new)
    (idle : start.sweep = .idle)
    (readable : ∀ key content, start.latest key = some content → ¬ start.harmed key →
      ∃ raw, start.stored key = some raw
        ∧ (BothRead cipher old raw content ∨ BothRead cipher new raw content))
    (run : Relation.ReflTransGen (Step cipher old new) start world)
    : (∀ key content, world.latest key = some content → ¬ world.harmed key →
        ∃ raw, world.stored key = some raw
          ∧ (BothRead cipher old raw content ∨ BothRead cipher new raw content)
          ∧ (world.sweep = .returned → BothRead cipher new raw content))
      ∧ ∀ draw raw rotated, (rewrap old new draw raw).result = .ok rotated →
        ∀ content, BothRead cipher new rotated content ↔ BothRead cipher old raw content := by
  constructor
  · have kept : ∀ key, Preserved cipher old new world key := by
      induction run with
      | refl =>
          intro key
          constructor
          case held =>
            intro _ _ _ holding
            cases idle.symm.trans holding
          case reads =>
            intro content put unharmed
            obtain ⟨raw, stored, reads⟩ := readable key content put unharmed
            refine ⟨raw, stored, ?_⟩
            rcases reads with reads | reads
            · exact .inr ⟨bothRead_iff.mp reads, by rw [idle]; trivial⟩
            · exact .inl (bothRead_iff.mp reads)
      | tail earlier step ih => exact step.kept rotates ih
    intro key content put unharmed
    obtain ⟨raw, stored, reads⟩ := (kept key).reads put unharmed
    refine ⟨raw, stored, ?_⟩
    rcases reads with reads | ⟨reads, awaits⟩
    · have both := bothRead_iff.mpr reads
      exact ⟨.inr both, fun _ => both⟩
    · refine ⟨.inl (bothRead_iff.mpr reads), ?_⟩
      intro returned
      rw [returned] at awaits
      cases awaits
  · intro draw raw rotated ok content
    rw [bothRead_iff, bothRead_iff]
    exact readable_rewrap_iff rotates.toSound ok

end Steps

-- A rotation of one object

section OneObject

/-- Two local keys unwrap nothing apart where no two sealings that look alike are of two messages. -/
theorem rotates_ofSealings {table : List Sealing} {kek other : DataKey} {id name : String}
    (opens : ∀ entry ∈ table,
      (ofSealings table).decrypt entry.key entry.nonce entry.aad entry.sealed_ = some entry.message)
    (overhead : ∀ entry ∈ table, entry.sealed_.length = entry.message.length + 16)
    (apart : ∀ entry ∈ table, ∀ entry' ∈ table, entry.sealed_ = entry'.sealed_ →
      entry.message = entry'.message)
    : Rotates (ofSealings table) (localKekProvider (ofSealings table) kek id)
      (localKekProvider (ofSealings table) other name) where
  toSound := sound_ofSealings opens overhead
  agree {wrapped dek dek'} olds news := by
    obtain ⟨nonce, sealed_, rfl, _, opened⟩ := localKekProvider_unwrap_eq_some_iff.mp olds
    obtain ⟨nonce', sealed', same, _, opened'⟩ := localKekProvider_unwrap_eq_some_iff.mp news
    obtain ⟨_, rfl⟩ := List.append_inj same (nonce.property.trans nonce'.property.symm)
    exact Subtype.ext (apart _ (ofSealings_decrypt opened) _ (ofSealings_decrypt opened') rfl)

/-- What AES-256-GCM seals an object as, under its data key. -/
def earlierPayload : Sealing where
  key :=
    repeated 32 1
  nonce :=
    repeated 12 1
  aad :=
    []
  message :=
    [104, 105]
  sealed_ :=
    [218, 16, 21, 114, 113, 219, 164, 30, 174, 187, 111, 188, 226, 23, 38, 91, 15, 209]

/-- What AES-256-GCM seals that data key as, under the new key. -/
def rewrappedKey : Sealing where
  key :=
    repeated 32 9
  nonce :=
    repeated 12 3
  aad :=
    []
  message :=
    List.replicate 32 1
  sealed_ :=
    [208, 149, 234, 115, 84, 189, 106, 173, 218, 163, 174, 116, 237, 57, 211, 243, 184, 254, 192,
      80, 133, 253, 148, 42, 252, 34, 215, 24, 119, 231, 173, 185, 69, 20, 172, 203, 1, 182, 173,
      200, 26, 200, 41, 189, 220, 185, 219, 93]

/-- What AES-256-GCM seals the data key of a later object as, under the new key. -/
def laterKey : Sealing where
  key :=
    repeated 32 9
  nonce :=
    repeated 12 4
  aad :=
    []
  message :=
    List.replicate 32 2
  sealed_ :=
    [229, 187, 186, 123, 236, 183, 105, 45, 132, 70, 96, 48, 22, 90, 46, 148, 205, 168, 123, 229,
      10, 139, 132, 90, 125, 84, 174, 183, 162, 113, 213, 85, 118, 122, 42, 246, 94, 34, 184, 215,
      174, 234, 243, 26, 200, 170, 189, 224]

/-- What AES-256-GCM seals the later object as, under its data key. -/
def laterPayload : Sealing where
  key :=
    repeated 32 2
  nonce :=
    repeated 12 1
  aad :=
    []
  message :=
    [33]
  sealed_ :=
    [135, 25, 149, 233, 201, 36, 245, 79, 31, 143, 238, 31, 46, 245, 107, 237, 233]

def rotationCipher : Cipher :=
  ofSealings [sealedKey, earlierPayload, rewrappedKey, laterKey, laterPayload]

def oldKek : KeyProvider Nonce :=
  localKekProvider rotationCipher (repeated 32 7) "local"

def newKek : KeyProvider Nonce :=
  localKekProvider rotationCipher (repeated 32 9) "local"

theorem rotates_kek
    : Rotates rotationCipher oldKek newKek :=
  rotates_ofSealings (by decide) (by decide) (by decide)

/-- What is stored of a wrapped key, and of what it leads. -/
def wholeBlob (key payload : Sealing) : List UInt8 :=
  headerBytes 2 (utf8 "local") (key.nonce.val ++ key.sealed_) ++ (payload.nonce.val ++ payload.sealed_)

def later : Written Nonce where
  draw :=
    laterKey.nonce
  dek :=
    laterPayload.key
  form :=
    .whole laterPayload.nonce laterPayload.message

theorem write_later
    : later.write rotationCipher newKek = .ok (wholeBlob laterKey laterPayload) := by
  rfl

theorem rewrap_earlier
    : (rewrap oldKek newKek rewrappedKey.nonce (wholeBlob sealedKey earlierPayload)).result
      = .ok (wholeBlob rewrappedKey earlierPayload) := by
  rfl

def oneObject : World Unit where
  stored _ :=
    some (wholeBlob sealedKey earlierPayload)
  latest _ :=
    some [104, 105]
  harmed _ :=
    False
  sweep :=
    .idle

theorem bothRead_earlier
    : BothRead rotationCipher oldKek (wholeBlob sealedKey earlierPayload) [104, 105] :=
  ⟨rfl, rfl⟩

theorem steps_read
    : Relation.ReflTransGen (Step rotationCipher oldKek newKek) oneObject
      { oneObject with
        sweep := .holding () (wholeBlob sealedKey earlierPayload) false [] } := by
  refine .head (.list [()] id (fun _ _ => List.mem_singleton_self ())) ?_
  exact .head (.read rfl rfl) .refl

/-- One object is rotated, and read under the new key. -/
theorem rotation_loses_nothing_oneObject
    : ∃ world raw, Relation.ReflTransGen (Step rotationCipher oldKek newKek) oneObject world
      ∧ world.sweep = .returned ∧ world.stored () = some raw
      ∧ BothRead rotationCipher newKek raw [104, 105] := by
  have start : ∀ key content, oneObject.latest key = some content → ¬ oneObject.harmed key →
      ∃ raw, oneObject.stored key = some raw
        ∧ (BothRead rotationCipher oldKek raw content ∨ BothRead rotationCipher newKek raw content) := by
    rintro _ _ ⟨⟩ _
    exact ⟨_, rfl, .inl bothRead_earlier⟩
  have run := (steps_read.tail (.writeBack rewrappedKey.nonce rfl rewrap_earlier)).tail (.finish rfl)
  obtain ⟨kept, _⟩ := rotation_loses_nothing rotates_kek rfl start run
  obtain ⟨raw, stored, _, returned⟩ := kept () [104, 105] rfl id
  exact ⟨_, raw, run, rfl, stored, returned rfl⟩

/-- An object that is put between the sweep's reading of it and its writing back is lost: once the
sweep has returned, what is read under the new key is what was put before.
-/
theorem not_rotation_loses_nothing
    : Rotates rotationCipher oldKek newKek
      ∧ BothRead rotationCipher oldKek (wholeBlob sealedKey earlierPayload) [104, 105]
      ∧ ∃ world, Relation.ReflTransGen (Step rotationCipher oldKek newKek) oneObject world
        ∧ world.sweep = .returned ∧ world.latest () = some [33]
        ∧ world.stored () = some (wholeBlob rewrappedKey earlierPayload)
        ∧ BothRead rotationCipher newKek (wholeBlob rewrappedKey earlierPayload) [104, 105]
        ∧ ¬ BothRead rotationCipher newKek (wholeBlob rewrappedKey earlierPayload) [33]
        ∧ ¬ BothRead rotationCipher oldKek (wholeBlob rewrappedKey earlierPayload) [33] := by
  have run := ((steps_read.tail (.put () later write_later)).tail
    (.writeBack rewrappedKey.nonce rfl rewrap_earlier)).tail (.finish rfl)
  have read : BothRead rotationCipher newKek (wholeBlob rewrappedKey earlierPayload) [104, 105] :=
    ⟨rfl, rfl⟩
  have fails
      : (get rotationCipher oldKek (wholeBlob rewrappedKey earlierPayload)).result
        = .error (.failed .unwrap) := by
    rfl
  refine ⟨rotates_kek, bothRead_earlier, _, run, rfl, rfl, rfl, read, ?_, ?_⟩
  · rintro ⟨other, _⟩
    cases read.1.symm.trans other
  · rintro ⟨other, _⟩
    cases fails.symm.trans other

end OneObject

end Dagron.Artifact
