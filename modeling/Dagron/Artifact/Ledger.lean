import Mathlib.Data.List.AList
import Mathlib.Data.List.Sort
import Mathlib.Tactic.SplitIfs

/-! The ledger of a tiered store: which artifacts wait for the remote tier and which were moved there, with
the bytes that were moved today; the records that change it, and the ones that make it again.
-/

namespace Dagron.Artifact

-- Keys

/-- A component of a path, with no character that could leave it. -/
def sanitize (component : String) : String :=
  if component = "" ∨ component = "." ∨ component = ".." then "_"
  else
    component.map fun char =>
      if char.isAlphanum || char == '-' || char == '_' || char == '.' then char else '_'

structure ArtifactKey where
  runId
    : String
  task
    : String
  name
    : String
  deriving DecidableEq

def ArtifactKey.relPath (key : ArtifactKey) : String :=
  sanitize key.runId ++ "/" ++ sanitize key.task ++ "/" ++ sanitize key.name

-- Records

inductive Record where
  | pending (key : ArtifactKey) (sha : String) (bytes at_ : Nat)
  | done (key : ArtifactKey) (sha : String) (bytes at_ : Nat) (remote : String)
  | uploadedBySha (key : ArtifactKey) (sha : String) (bytes at_ : Nat) (of_ : ArtifactKey)
  | day (day bytes : Nat)
  | forget (key : ArtifactKey)
  deriving DecidableEq

inductive EntryState where
  | pending
  | done (remote : String)
  | alias_ (of_ : ArtifactKey)
  deriving DecidableEq

/-- An artifact in the ledger: the hash and the size of its bytes, and when it entered its state; (seq)
breaks the ties of one second.
-/
structure Entry where
  key
    : ArtifactKey
  sha
    : String
  bytes
    : Nat
  at_
    : Nat
  seq
    : Nat
  state
    : EntryState
  deriving DecidableEq

/-- The ledger in memory: the entries by their paths, the path of an uploaded artifact for each hash of one,
the bytes that were moved on a day, and the records that were appended since the file was written anew.
-/
structure Ledger where
  entries
    : AList fun _ : String => Entry := ∅
  bySha
    : AList fun _ : String => String := ∅
  day
    : Nat := 0
  dayBytes
    : Nat := 0
  nextSeq
    : Nat := 0
  appended
    : Nat := 0
  needsCompaction
    : Bool := false
  deriving DecidableEq

namespace Ledger

def detach (ledger : Ledger) (rel : String) : Ledger :=
  match ledger.entries.lookup rel with
  | some old =>
      if ledger.bySha.lookup old.sha = some rel then
        { ledger with bySha := ledger.bySha.erase old.sha }
      else ledger
  | none => ledger

def insert (ledger : Ledger) (key : ArtifactKey) (sha : String) (bytes at_ : Nat) (state : EntryState)
    : Ledger :=
  let detached := ledger.detach key.relPath
  { detached with
    nextSeq := detached.nextSeq + 1
    entries := detached.entries.insert key.relPath ⟨key, sha, bytes, at_, detached.nextSeq, state⟩ }

/-- The ledger after a record, one that is read again or a new one. -/
def apply (ledger : Ledger) : Record → Ledger
  | .pending key sha bytes at_ => ledger.insert key sha bytes at_ .pending
  | .done key sha bytes at_ remote =>
      let done := ledger.insert key sha bytes at_ (.done remote)
      { done with bySha := done.bySha.insert sha key.relPath }
  | .uploadedBySha key sha bytes at_ of_ => ledger.insert key sha bytes at_ (.alias_ of_)
  | .day day bytes => { ledger with day := day, dayBytes := bytes }
  | .forget key =>
      let detached := ledger.detach key.relPath
      { detached with entries := detached.entries.erase key.relPath }

def applyAll (ledger : Ledger) (records : List Record) : Ledger :=
  records.foldl apply ledger

-- Questions

/-- An entry that is uploaded and holds the bytes of a hash, at another path. -/
def canonicalFor (ledger : Ledger) (sha exclude : String) : Option Entry :=
  (ledger.bySha.lookup sha).bind fun rel =>
    if rel = exclude then none
    else
      (ledger.entries.lookup rel).filter fun entry =>
        (entry.state matches .done _) && entry.sha == sha

/-- Whether an alias stands for an entry that is still uploaded with the same hash. -/
def aliasTargetValid (ledger : Ledger) (entry : Entry) : Bool :=
  match entry.state with
  | .alias_ of_ =>
      (ledger.entries.lookup of_.relPath).any fun canonical =>
        (canonical.state matches .done _) && canonical.sha == entry.sha
  | _ => false

def remoteKeyFor (ledger : Ledger) (key : ArtifactKey) : Option ArtifactKey :=
  match ledger.entries.lookup key.relPath with
  | some entry =>
      match entry.state with
      | .alias_ of_ => if ledger.aliasTargetValid entry then some of_ else none
      | _ => some key
  | none => some key

/-- Whether a key has bytes of a hash already, in a state that needs no record. -/
def isSettled (ledger : Ledger) (key : ArtifactKey) (sha : String) : Bool :=
  (ledger.entries.lookup key.relPath).any fun entry =>
    entry.sha == sha
      && match entry.state with
        | .pending | .done _ => true
        | .alias_ _ => ledger.aliasTargetValid entry

/-- Whether an entry entered its state no later than another. -/
def earlier (first second : Entry) : Prop :=
  first.at_ < second.at_ ∨ first.at_ = second.at_ ∧ first.seq ≤ second.seq

instance decidableEarlier (first second : Entry) : Decidable (earlier first second) :=
  inferInstanceAs (Decidable (_ ∨ _ ∧ _))

/-- All entries, in the order in which they entered their states. -/
def inOrder (ledger : Ledger) : List Entry :=
  (ledger.entries.entries.map Sigma.snd).insertionSort earlier

def pendingInOrder (ledger : Ledger) : List Entry :=
  ((ledger.entries.entries.map Sigma.snd).filter fun entry => entry.state = .pending).insertionSort
    earlier

def staleAliases (ledger : Ledger) : List Entry :=
  (ledger.entries.entries.map Sigma.snd).filter fun entry =>
    (entry.state matches .alias_ _) && !ledger.aliasTargetValid entry

def recordOf (entry : Entry) : Record :=
  match entry.state with
  | .pending => .pending entry.key entry.sha entry.bytes entry.at_
  | .done remote => .done entry.key entry.sha entry.bytes entry.at_ remote
  | .alias_ of_ => .uploadedBySha entry.key entry.sha entry.bytes entry.at_ of_

/-- The records that make the ledger, in the order in which they are read again. -/
def snapshot (ledger : Ledger) : List Record :=
  ledger.inOrder.map recordOf ++ [.day ledger.day ledger.dayBytes]

-- What a record does

variable {ledger : Ledger}

@[simp]
theorem detach_entries (rel : String)
    : (ledger.detach rel).entries = ledger.entries := by
  unfold detach
  split
  · split_ifs <;> rfl
  · rfl

@[simp]
theorem detach_nextSeq (rel : String)
    : (ledger.detach rel).nextSeq = ledger.nextSeq := by
  unfold detach
  split
  · split_ifs <;> rfl
  · rfl

@[simp]
theorem detach_day (rel : String)
    : (ledger.detach rel).day = ledger.day ∧ (ledger.detach rel).dayBytes = ledger.dayBytes := by
  unfold detach
  split
  · split_ifs <;> exact ⟨rfl, rfl⟩
  · exact ⟨rfl, rfl⟩

/-- What a record is of, and the entry that it makes of it. -/
def madeOf (seq : Nat) : Record → Option (String × Option Entry)
  | .pending key sha bytes at_ => some (key.relPath, some ⟨key, sha, bytes, at_, seq, .pending⟩)
  | .done key sha bytes at_ remote =>
      some (key.relPath, some ⟨key, sha, bytes, at_, seq, .done remote⟩)
  | .uploadedBySha key sha bytes at_ of_ =>
      some (key.relPath, some ⟨key, sha, bytes, at_, seq, .alias_ of_⟩)
  | .day _ _ => none
  | .forget key => some (key.relPath, none)

theorem lookup_insert (key : ArtifactKey) (sha : String) (bytes at_ : Nat) (state : EntryState)
    (rel : String)
    : (ledger.insert key sha bytes at_ state).entries.lookup rel
      = if rel = key.relPath then some ⟨key, sha, bytes, at_, ledger.nextSeq, state⟩
        else ledger.entries.lookup rel := by
  simp only [insert, detach_entries, detach_nextSeq]
  split_ifs with same
  · rw [same, AList.lookup_insert]
  · rw [AList.lookup_insert_ne same]

theorem lookup_apply (record : Record) (rel : String)
    : (ledger.apply record).entries.lookup rel
      = match madeOf ledger.nextSeq record with
        | some (path, made) => if rel = path then made else ledger.entries.lookup rel
        | none => ledger.entries.lookup rel := by
  cases record with
  | pending | done | uploadedBySha => exact lookup_insert ..
  | day day bytes => rfl
  | forget key =>
      simp only [apply, madeOf, detach_entries]
      split_ifs with same
      · rw [same, AList.lookup_erase]
      · rw [AList.lookup_erase_ne same]

-- The same ledger

/-- An entry without the number it got as it was inserted. -/
def unnumbered (entry : Entry) : Entry :=
  { entry with seq := 0 }

/-- Whether two ledgers have the same entries and the same bytes of the day. -/
structure Same (first second : Ledger) : Prop where
  entries
    : ∀ rel, (first.entries.lookup rel).map unnumbered = (second.entries.lookup rel).map unnumbered
  day
    : first.day = second.day
  dayBytes
    : first.dayBytes = second.dayBytes

theorem Same.refl (ledger : Ledger)
    : Same ledger ledger :=
  ⟨fun _ => rfl, rfl, rfl⟩

theorem Same.trans {first second third : Ledger} (same : Same first second) (next : Same second third)
    : Same first third :=
  ⟨fun rel => (same.entries rel).trans (next.entries rel), same.day.trans next.day,
    same.dayBytes.trans next.dayBytes⟩

theorem Same.symm {first second : Ledger} (same : Same first second)
    : Same second first :=
  ⟨fun rel => (same.entries rel).symm, same.day.symm, same.dayBytes.symm⟩

theorem apply_day (record : Record)
    : (ledger.apply record).day = (match record with | .day day _ => day | _ => ledger.day)
      ∧ (ledger.apply record).dayBytes
        = match record with | .day _ bytes => bytes | _ => ledger.dayBytes := by
  cases record <;> simp [apply, insert]

theorem Same.apply {first second : Ledger} (same : Same first second) (record : Record)
    : Same (first.apply record) (second.apply record) := by
  refine ⟨fun rel => ?_, ?_, ?_⟩
  · rw [lookup_apply, lookup_apply]
    cases record with
    | pending | done | uploadedBySha | forget =>
        simp only [madeOf]
        split_ifs
        · rfl
        · exact same.entries rel
    | day => exact same.entries rel
  · rw [(apply_day record).1, (apply_day record).1, same.day]
  · rw [(apply_day record).2, (apply_day record).2, same.dayBytes]

theorem Same.applyAll {first second : Ledger} (same : Same first second) (records : List Record)
    : Same (first.applyAll records) (second.applyAll records) := by
  induction records generalizing first second with
  | nil => exact same
  | cons record rest ih => exact ih (same.apply record)

theorem applyAll_append (first second : List Record)
    : ledger.applyAll (first ++ second) = (ledger.applyAll first).applyAll second :=
  List.foldl_append

-- The index of hashes

/-- What holds of a ledger however it came about: an entry is at its key's path, and each hash that is
indexed points to an uploaded entry of that hash.
-/
structure Sound (ledger : Ledger) : Prop where
  keyed
    : ∀ rel entry, ledger.entries.lookup rel = some entry → entry.key.relPath = rel
  pointers
    : ∀ sha rel, ledger.bySha.lookup sha = some rel →
      ∃ entry remote, ledger.entries.lookup rel = some entry ∧ entry.state = .done remote
        ∧ entry.sha = sha

theorem Sound.detach (sound : ledger.Sound) {rel sha other : String}
    (pointer : (ledger.detach rel).bySha.lookup sha = some other)
    : ledger.bySha.lookup sha = some other ∧ other ≠ rel := by
  have was : ledger.bySha.lookup sha = some other := by
    unfold Ledger.detach at pointer
    split at pointer
    case h_1 old has =>
      split_ifs at pointer with drops
      · by_cases same : sha = old.sha
        · rw [same, AList.lookup_erase] at pointer
          exact absurd pointer nofun
        · rwa [AList.lookup_erase_ne same] at pointer
      · exact pointer
    case h_2 => exact pointer
  refine ⟨was, ?_⟩
  rintro rfl
  obtain ⟨entry, remote, has, -, rfl⟩ := sound.pointers sha other was
  unfold Ledger.detach at pointer
  simp only [has, was, if_true, AList.lookup_erase] at pointer
  exact absurd pointer nofun

theorem Sound.insert (sound : ledger.Sound) (key : ArtifactKey) (sha : String) (bytes at_ : Nat)
    (state : EntryState)
    : (ledger.insert key sha bytes at_ state).Sound := by
  refine ⟨fun rel entry has => ?_, fun sha' rel pointer => ?_⟩
  · rw [lookup_insert] at has
    split_ifs at has with same
    · rw [← Option.some.inj has, same]
    · exact sound.keyed rel entry has
  · obtain ⟨was, other⟩ := sound.detach pointer
    obtain ⟨entry, remote, has, state', same⟩ := sound.pointers sha' rel was
    exact ⟨entry, remote, by rw [lookup_insert, if_neg other, has], state', same⟩

theorem Sound.apply (sound : ledger.Sound) (record : Record)
    : (ledger.apply record).Sound := by
  cases record with
  | pending key sha bytes at_ | uploadedBySha key sha bytes at_ of_ => exact sound.insert ..
  | day day bytes => exact { sound with }
  | done key sha bytes at_ remote =>
      have inserted := sound.insert key sha bytes at_ (.done remote)
      refine ⟨inserted.keyed, fun sha' rel pointer => ?_⟩
      by_cases same : sha' = sha
      · subst same
        obtain rfl : key.relPath = rel := by
          simpa only [Ledger.apply, AList.lookup_insert, Option.some.injEq] using pointer
        exact ⟨_, remote, by rw [Ledger.apply, lookup_insert, if_pos rfl], rfl, rfl⟩
      · rw [Ledger.apply, AList.lookup_insert_ne same] at pointer
        exact inserted.pointers sha' rel pointer
  | forget key =>
      refine ⟨fun rel entry has => ?_, fun sha rel pointer => ?_⟩
      · rw [lookup_apply] at has
        simp only [madeOf] at has
        split_ifs at has
        exact sound.keyed rel entry has
      · obtain ⟨was, other⟩ := sound.detach pointer
        obtain ⟨entry, remote, has, state, same⟩ := sound.pointers sha rel was
        refine ⟨entry, remote, ?_, state, same⟩
        rw [lookup_apply]
        simp only [madeOf, if_neg other, has]

theorem Sound.applyAll (sound : ledger.Sound) (records : List Record)
    : (ledger.applyAll records).Sound := by
  induction records generalizing ledger with
  | nil => exact sound
  | cons record rest ih => exact ih (sound.apply record)

theorem sound_default
    : ({} : Ledger).Sound :=
  ⟨fun _ _ has => by simp at has, fun _ _ pointer => by simp at pointer⟩

-- The ledger written anew

theorem lookup_recordOf (entry : Entry) (rel : String)
    : ((ledger.apply (recordOf entry)).entries.lookup rel).map unnumbered
      = if rel = entry.key.relPath then some (unnumbered entry)
        else (ledger.entries.lookup rel).map unnumbered := by
  obtain ⟨key, sha, bytes, at_, seq, state⟩ := entry
  rw [lookup_apply]
  cases state with
  | pending | done | alias_ =>
      simp only [recordOf, madeOf]
      split_ifs <;> rfl

theorem lookup_records {entries : List Entry} (apart : (entries.map fun entry => entry.key.relPath).Nodup)
    (rel : String)
    : ((ledger.applyAll (entries.map recordOf)).entries.lookup rel).map unnumbered
      = ((entries.find? fun entry => entry.key.relPath = rel).map unnumbered).or
          ((ledger.entries.lookup rel).map unnumbered) := by
  induction entries generalizing ledger with
  | nil => rfl
  | cons entry rest ih =>
      rw [List.map_cons, List.nodup_cons] at apart
      rw [List.map_cons, Ledger.applyAll, List.foldl_cons]
      rw [← Ledger.applyAll, ih apart.2, lookup_recordOf]
      by_cases same : entry.key.relPath = rel
      · subst same
        have none_ : rest.find? (fun other => other.key.relPath = entry.key.relPath) = none := by
          rw [List.find?_eq_none]
          intro other listed is
          exact apart.1 (List.mem_map.mpr ⟨other, listed, by simpa using is⟩)
        simp [none_]
      · simp [same, Ne.symm same]

theorem Sound.snapshot (sound : ledger.Sound)
    : Same (({} : Ledger).applyAll ledger.snapshot) ledger := by
  have perm : ledger.inOrder.Perm (ledger.entries.entries.map Sigma.snd) :=
    List.perm_insertionSort ..
  have listed (rel : String) (entry : Entry)
      : entry ∈ ledger.inOrder ∧ entry.key.relPath = rel ↔ ledger.entries.lookup rel = some entry := by
    rw [perm.mem_iff, List.mem_map]
    constructor
    · rintro ⟨⟨⟨path, _⟩, has, rfl⟩, rfl⟩
      have has := AList.mem_lookup_iff.mpr has
      rwa [sound.keyed path _ has]
    · intro has
      exact ⟨⟨⟨rel, entry⟩, AList.mem_lookup_iff.mp has, rfl⟩, sound.keyed rel entry has⟩
  have apart : (ledger.inOrder.map fun entry => entry.key.relPath).Nodup := by
    rw [(perm.map _).nodup_iff, List.map_map]
    have keys : ledger.entries.entries.map (fun row => row.2.key.relPath)
        = ledger.entries.entries.map Sigma.fst :=
      List.map_congr_left fun row has => sound.keyed row.1 row.2 (AList.mem_lookup_iff.mpr has)
    exact keys ▸ ledger.entries.keys_nodup
  rw [Ledger.snapshot, applyAll_append]
  refine ⟨fun rel => ?_, rfl, rfl⟩
  have same := @lookup_records {} _ apart rel
  simp only [AList.lookup_empty, Option.map_none, Option.or_none] at same
  have step : (({} : Ledger).applyAll (ledger.inOrder.map recordOf)).applyAll
        [.day ledger.day ledger.dayBytes]
      = (({} : Ledger).applyAll (ledger.inOrder.map recordOf)).apply
        (.day ledger.day ledger.dayBytes) := rfl
  rw [step, lookup_apply]
  refine same.trans ?_
  cases found : ledger.inOrder.find? fun entry => entry.key.relPath = rel with
  | some entry =>
      have in_ := List.mem_of_find?_eq_some found
      have at_ : entry.key.relPath = rel := by simpa using List.find?_some found
      rw [(listed rel entry).mp ⟨in_, at_⟩]
  | none =>
      cases has : ledger.entries.lookup rel with
      | none => rfl
      | some entry =>
          obtain ⟨in_, at_⟩ := (listed rel entry).mpr has
          exact absurd at_ (by simpa using List.find?_eq_none.mp found entry in_)

end Ledger

end Dagron.Artifact
