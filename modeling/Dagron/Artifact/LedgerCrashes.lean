import Dagron.Artifact.LedgerFile

/-! What the ledger's file holds after any writes, restarts and crashes: the records of every write that
returned, and of each other one the first few, as long as no append is cut just before the end of a line.
-/

namespace Dagron.Artifact

open Dagron.Library

variable {codec : Codec}

/-- The records of writes that are kept: all of each that returned, and some first ones of each other. -/
inductive Kept : List (List Record × Bool) → List Record → Prop
  | none_ : Kept [] []
  | returned {attempts : List (List Record × Bool)} {kept : List Record} (earlier : Kept attempts kept)
      (records : List Record)
      : Kept (attempts ++ [(records, true)]) (kept ++ records)
  | cut {attempts : List (List Record × Bool)} {kept : List Record} (earlier : Kept attempts kept)
      {records part : List Record} (begins : part <+: records)
      : Kept (attempts ++ [(records, false)]) (kept ++ part)

theorem Kept.whole {attempts : List (List Record × Bool)} {kept : List Record}
    (earlier : Kept attempts kept) (records : List Record) (returned : Bool)
    : Kept (attempts ++ [(records, returned)]) (kept ++ records) := by
  cases returned with
  | true => exact earlier.returned records
  | false => exact earlier.cut List.prefix_rfl

namespace LedgerWorld

variable (codec) in
/-- Steps at which an append is not cut just before the end of a record's line. -/
def Steady (op : LedgerOp) (world : LedgerWorld) : Prop :=
  match op with
  | .persist records (.failed count) | .persist records (.crashed count) =>
      ∀ ledger ∈ world.memory, (ledger.applyAll records).compacts records = false →
        ∀ place < records.length, (encodeAll codec (records.take (place + 1))).length ≠ count + 1
  | _ => True

variable (codec) in
/-- What holds of the ledger: its file is the lines of records and a torn one, which are those of the
writes that are kept; and the ledger in memory is that of such writes too, and the file's where nothing is
wrong with that.
-/
structure FileInv (world : LedgerWorld) (lines : List Record) (tail : List UInt8) : Prop where
  file
    : world.file = encodeAll codec lines ++ tail
  torn
    : Torn codec tail
  kept
    : ∃ kept, Kept world.attempts kept
      ∧ Ledger.Same (({} : Ledger).applyAll lines) (({} : Ledger).applyAll kept)
  memory
    : ∀ ledger ∈ world.memory, ledger.Sound
      ∧ (∃ kept, Kept world.attempts kept ∧ Ledger.Same ledger (({} : Ledger).applyAll kept))
      ∧ (ledger.needsCompaction = false →
        tail = [] ∧ Ledger.Same ledger (({} : Ledger).applyAll lines))

variable (codec) in
/-- What was recovered of the ledger: what is read of the file are the records that are kept; and what is
read of one that is written anew is the ledger in memory, with each pointer to an uploaded entry of its hash.
-/
structure Recovered (world : LedgerWorld) : Prop where
  loaded
    : ∃ kept, Kept world.attempts kept
      ∧ Ledger.Same (loadLedger codec world.file) (({} : Ledger).applyAll kept)
  snapshot
    : ∀ ledger ∈ world.memory,
      Ledger.Same (loadLedger codec (encodeAll codec ledger.snapshot)) ledger
  sound
    : (loadLedger codec world.file).Sound
      ∧ ∀ ledger ∈ world.memory, (loadLedger codec (encodeAll codec ledger.snapshot)).Sound

variable {world after : LedgerWorld} {lines : List Record} {tail : List UInt8}

-- Loading

theorem same_flag (ledger : Ledger) (flag : Bool)
    : Ledger.Same { ledger with needsCompaction := flag } ledger :=
  ⟨fun _ => rfl, rfl, rfl⟩

theorem needsCompaction_applyAll (ledger : Ledger) (records : List Record)
    : (ledger.applyAll records).needsCompaction = ledger.needsCompaction := by
  have detach (ledger : Ledger) (rel : String)
      : (ledger.detach rel).needsCompaction = ledger.needsCompaction := by
    unfold Ledger.detach
    split
    · split_ifs <;> rfl
    · rfl
  induction records generalizing ledger with
  | nil => rfl
  | cons record rest ih =>
      refine (ih _).trans ?_
      cases record <;> simp [Ledger.apply, Ledger.insert, detach]

theorem same_load (records : List Record) {tail : List UInt8} (torn : Torn codec tail)
    : Ledger.Same (loadLedger codec (encodeAll codec records ++ tail))
        (({} : Ledger).applyAll records) := by
  rw [load_lines records torn]
  split_ifs
  · exact .refl _
  · exact same_flag _ _

theorem sound_load (records : List Record) {tail : List UInt8} (torn : Torn codec tail)
    : (loadLedger codec (encodeAll codec records ++ tail)).Sound := by
  rw [load_lines records torn]
  have sound := Ledger.sound_default.applyAll records
  split_ifs
  · exact sound
  · exact { sound with }

theorem same_load_snapshot {ledger : Ledger} (sound : ledger.Sound)
    : Ledger.Same (loadLedger codec (encodeAll codec ledger.snapshot)) ledger := by
  have loaded := @same_load codec ledger.snapshot [] (Or.inl rfl)
  rw [List.append_nil] at loaded
  exact loaded.trans sound.snapshot

theorem FileInv.recovered (inv : FileInv codec world lines tail)
    : Recovered codec world := by
  obtain ⟨kept, keeps, same⟩ := inv.kept
  refine ⟨⟨kept, keeps, ?_⟩, fun ledger has => same_load_snapshot (inv.memory ledger has).1, ?_, ?_⟩
  · rw [inv.file]
    exact (same_load lines inv.torn).trans same
  · rw [inv.file]
    exact sound_load lines inv.torn
  · intro ledger _
    have sound := @sound_load codec ledger.snapshot [] (Or.inl rfl)
    rwa [List.append_nil] at sound

theorem FileInv.load (inv : FileInv codec world lines tail) (done : world.operate codec .load = some after)
    : FileInv codec after lines tail := by
  simp only [operate, Option.ite_none_right_eq_some] at done
  obtain rfl := Option.some.inj done.2
  refine { inv with memory := ?_ }
  rintro _ ⟨rfl⟩
  obtain ⟨kept, keeps, same⟩ := inv.kept
  rw [inv.file]
  refine ⟨sound_load lines inv.torn, ⟨kept, keeps, (same_load lines inv.torn).trans same⟩, ?_⟩
  intro clean
  refine ⟨?_, same_load lines inv.torn⟩
  rw [load_lines lines inv.torn] at clean
  split_ifs at clean with none_
  exact none_

-- Writing

variable (codec) in
/-- What a write leaves: the lines of records that are kept, and a torn one; and where it returned, all of
the ledger in memory.
-/
def Leaves (file : List UInt8) (attempts : List (List Record × Bool)) (whole : Option Ledger) : Prop :=
  ∃ lines tail, file = encodeAll codec lines ++ tail ∧ Torn codec tail
    ∧ (∃ kept, Kept attempts kept
      ∧ Ledger.Same (({} : Ledger).applyAll lines) (({} : Ledger).applyAll kept))
    ∧ ∀ ledger ∈ whole, tail = [] ∧ Ledger.Same ledger (({} : Ledger).applyAll lines)

theorem FileInv.rewritten (inv : FileInv codec world lines tail) {ledger : Ledger}
    (has : world.memory = some ledger) (records : List Record) (returned : Bool)
    : Leaves codec (encodeAll codec (ledger.applyAll records).snapshot)
        (world.attempts ++ [(records, returned)]) (some (ledger.applyAll records)) := by
  obtain ⟨sound, ⟨kept, keeps, same⟩, -⟩ := inv.memory ledger has
  have whole := (sound.applyAll records).snapshot
  refine ⟨(ledger.applyAll records).snapshot, [], (List.append_nil _).symm, Or.inl rfl,
    ⟨kept ++ records, keeps.whole records returned, whole.trans ?_⟩, ?_⟩
  · rw [Ledger.applyAll_append]
    exact same.applyAll records
  · rintro _ ⟨rfl⟩
    exact ⟨rfl, whole.symm⟩

theorem FileInv.unwritten (inv : FileInv codec world lines tail) (records : List Record)
    : Leaves codec world.file (world.attempts ++ [(records, false)]) none := by
  obtain ⟨kept, keeps, same⟩ := inv.kept
  refine ⟨lines, tail, inv.file, inv.torn, ⟨kept ++ [], keeps.cut List.nil_prefix, ?_⟩, nofun⟩
  rw [List.append_nil]
  exact same

theorem FileInv.appended (inv : FileInv codec world lines []) {part : List Record} {torn : List UInt8}
    (tail : Torn codec torn) {attempts : List (List Record × Bool)}
    (keeps : ∀ kept, Kept world.attempts kept → Kept attempts (kept ++ part))
    : Leaves codec (world.file ++ (encodeAll codec part ++ torn)) attempts none := by
  obtain ⟨kept, earlier, same⟩ := inv.kept
  refine ⟨lines ++ part, torn, ?_, tail, ⟨kept ++ part, keeps kept earlier, ?_⟩, nofun⟩
  · rw [inv.file, List.append_nil, encodeAll_append, List.append_assoc]
  · rw [Ledger.applyAll_append, Ledger.applyAll_append]
    exact same.applyAll part

theorem FileInv.writes (inv : FileInv codec world lines tail) {ledger : Ledger}
    (has : world.memory = some ledger) {records : List Record} {outcome : Outcome}
    (steady : Steady codec (.persist records outcome) world)
    : Leaves codec
        (if (ledger.applyAll records).compacts records then
          replaceBy world.file (encodeAll codec (ledger.applyAll records).snapshot) outcome
        else appendTo world.file (encodeAll codec records) outcome)
        (world.attempts ++ [(records, decide (outcome = .returned))])
        (if outcome = .returned then some (ledger.applyAll records) else none) := by
  cases compact : (ledger.applyAll records).compacts records with
  | true =>
      rw [if_pos rfl]
      cases outcome with
      | returned => exact inv.rewritten has records true
      | failed count => exact inv.unwritten records
      | crashed count =>
          by_cases renamed : (encodeAll codec (ledger.applyAll records).snapshot).length < count
          · obtain ⟨lines, tail, file, torn, kept, -⟩ := inv.rewritten has records false
            rw [replaceBy, if_pos renamed]
            exact ⟨lines, tail, file, torn, kept, nofun⟩
          · rw [replaceBy, if_neg renamed]
            exact inv.unwritten records
  | false =>
      rw [if_neg nofun]
      have clean : ledger.needsCompaction = false := by
        rw [Ledger.compacts, Bool.or_eq_false_iff, needsCompaction_applyAll] at compact
        exact compact.1
      obtain ⟨sound, -, whole⟩ := inv.memory ledger has
      obtain ⟨rfl, same⟩ := whole clean
      have cut (count : Nat)
          (uneven : ∀ place < records.length,
            (encodeAll codec (records.take (place + 1))).length ≠ count + 1)
          : Leaves codec (world.file ++ (encodeAll codec records).take count)
              (world.attempts ++ [(records, false)]) none := by
        obtain ⟨part, torn, begins, tail, left⟩ := take_encodeAll uneven
        rw [left]
        exact inv.appended tail fun kept keeps => keeps.cut begins
      cases outcome with
      | returned =>
          obtain ⟨kept, keeps, same'⟩ := inv.kept
          refine ⟨lines ++ records, [], ?_, Or.inl rfl, ⟨kept ++ records, keeps.returned records, ?_⟩, ?_⟩
          · rw [appendTo, inv.file, encodeAll_append, List.append_nil, List.append_nil]
          · rw [Ledger.applyAll_append, Ledger.applyAll_append]
            exact same'.applyAll records
          · rintro _ ⟨rfl⟩
            rw [Ledger.applyAll_append]
            exact ⟨rfl, same.applyAll records⟩
      | failed count | crashed count => exact cut count (steady ledger has compact)

theorem FileInv.persist (inv : FileInv codec world lines tail) {records : List Record}
    {outcome : Outcome} (done : world.persist codec records outcome = some after)
    (steady : Steady codec (.persist records outcome) world)
    : ∃ lines' tail', FileInv codec after lines' tail' := by
  obtain ⟨ledger, has, done⟩ := Option.bind_eq_some_iff.mp done
  simp only [Option.ite_none_left_eq_some] at done
  obtain ⟨-, done⟩ := done
  obtain rfl := Option.some.inj done
  obtain ⟨sound, ⟨kept, keeps, same⟩, -⟩ := inv.memory ledger has
  obtain ⟨lines', tail', file, torn, keptFile, whole⟩ := inv.writes has steady
  refine ⟨lines', tail', file, torn, keptFile, ?_⟩
  have applied := sound.applyAll records
  have keptHere : ∃ kept, Kept (world.attempts ++ [(records, decide (outcome = .returned))]) kept
      ∧ Ledger.Same (ledger.applyAll records) (({} : Ledger).applyAll kept) := by
    refine ⟨kept ++ records, keeps.whole records _, ?_⟩
    rw [Ledger.applyAll_append]
    exact same.applyAll records
  cases outcome with
  | returned =>
      rintro _ ⟨rfl⟩
      obtain ⟨rfl, all⟩ := whole _ rfl
      obtain ⟨kept, keeps, same⟩ := keptHere
      exact ⟨{ applied with }, ⟨kept, keeps, ⟨same.entries, same.day, same.dayBytes⟩⟩,
        fun _ => ⟨rfl, ⟨all.entries, all.day, all.dayBytes⟩⟩⟩
  | failed count =>
      rintro _ ⟨rfl⟩
      obtain ⟨kept, keeps, same⟩ := keptHere
      exact ⟨{ applied with }, ⟨kept, keeps, ⟨same.entries, same.day, same.dayBytes⟩⟩, nofun⟩
  | crashed count => nofun

end LedgerWorld

/-- In every run in which no append is cut just before the end of a record's line, what is read of the
ledger's file are the records of every write that returned and, of each other one, the first few; and what
is read of the ledger written anew is the ledger.
-/
theorem ledger_recovers (codec : Codec)
    : ∀ commits world, (ledgerSystem codec).History (LedgerWorld.Steady codec) {} commits world →
      LedgerWorld.Recovered codec world := by
  intro commits world history
  let Inv (world : LedgerWorld) : Prop := ∃ lines tail, LedgerWorld.FileInv codec world lines tail
  have initial : Inv {} :=
    ⟨[], [], rfl, Or.inl rfl, ⟨[], .none_, .refl _⟩, nofun⟩
  have whole := @System.History.rule _ _ _ _ Inv (fun _ => True) _ _ _ history initial ?_
  · obtain ⟨lines, tail, inv⟩ := whole.1
    exact inv.recovered
  · intro op origin _ commit member held steady
    obtain ⟨after, done, rfl⟩ := mem_commitsFrom_toList.mp member
    obtain ⟨lines, tail, inv⟩ := held
    refine ⟨?_, trivial⟩
    cases op with
    | load => exact ⟨lines, tail, inv.load done⟩
    | persist records outcome => exact inv.persist done steady
    | crash =>
        obtain rfl := Option.some.inj done
        exact ⟨lines, tail, { inv with memory := nofun }⟩

-- A line without its end

namespace Unary

def codes (text : String) : List Nat :=
  text.toList.map Char.toNat

/-- The numbers of a record, its texts by the numbers of their characters. -/
def fields : Record → List (List Nat)
  | .pending key sha bytes at_ =>
      [[0], codes key.runId, codes key.task, codes key.name, codes sha, [bytes], [at_]]
  | .done key sha bytes at_ remote =>
      [[1], codes key.runId, codes key.task, codes key.name, codes sha, [bytes], [at_], codes remote]
  | .uploadedBySha key sha bytes at_ of_ =>
      [[2], codes key.runId, codes key.task, codes key.name, codes sha, [bytes], [at_],
        codes of_.runId, codes of_.task, codes of_.name]
  | .day day bytes => [[3], [day], [bytes]]
  | .forget key => [[4], codes key.runId, codes key.task, codes key.name]

def numberBytes (number : Nat) : List UInt8 :=
  List.replicate number 49 ++ [44]

def fieldBytes (field : List Nat) : List UInt8 :=
  field.flatMap numberBytes ++ [59]

def body (record : Record) : List UInt8 :=
  (fields record).flatMap fieldBytes

def encode (record : Record) : List UInt8 :=
  123 :: body record ++ [125]

/-- Fields that are read, the one that is not at its end, and its last number. -/
structure Scan where
  fields
    : List (List Nat) := []
  field
    : List Nat := []
  number
    : Nat := 0

def scan (seen : Scan) (byte : UInt8) : Scan :=
  if byte = 49 then { seen with number := seen.number + 1 }
  else if byte = 44 then { seen with field := seen.field ++ [seen.number], number := 0 }
  else if byte = 59 then { seen with fields := seen.fields ++ [seen.field], field := [] }
  else seen

def text (codes : List Nat) : String :=
  String.ofList (codes.map Char.ofNat)

def recordOf : List (List Nat) → Option Record
  | [[0], run, task, name, sha, [bytes], [at_]] =>
      some (.pending ⟨text run, text task, text name⟩ (text sha) bytes at_)
  | [[1], run, task, name, sha, [bytes], [at_], remote] =>
      some (.done ⟨text run, text task, text name⟩ (text sha) bytes at_ (text remote))
  | [[2], run, task, name, sha, [bytes], [at_], run', task', name'] =>
      some (.uploadedBySha ⟨text run, text task, text name⟩ (text sha) bytes at_
        ⟨text run', text task', text name'⟩)
  | [[3], [day], [bytes]] => some (.day day bytes)
  | [[4], run, task, name] => some (.forget ⟨text run, text task, text name⟩)
  | _ => none

def decode (line : List UInt8) : Option Record :=
  (recordOf (line.foldl scan {}).fields).filter fun record => encode record = line

theorem text_codes (value : String)
    : text (codes value) = value := by
  have chars : (value.toList.map Char.toNat).map Char.ofNat = value.toList := by
    rw [List.map_map]
    exact (List.map_congr_left fun char _ => Char.ofNat_toNat char).trans (List.map_id _)
  rw [text, codes, chars, String.ofList_toList]

theorem recordOf_fields (record : Record)
    : recordOf (fields record) = some record := by
  cases record <;> simp [fields, recordOf, text_codes]

theorem scan_number (count : Nat) (seen : Scan)
    : (numberBytes count).foldl scan seen
      = { seen with field := seen.field ++ [seen.number + count], number := 0 } := by
  induction count generalizing seen with
  | zero => rfl
  | succ count ih =>
      rw [numberBytes, List.replicate_succ, List.cons_append, List.foldl_cons, ← numberBytes, ih]
      simp [scan, Nat.add_assoc, Nat.add_comm 1]

theorem scan_field (numbers : List Nat) (fields : List (List Nat)) (seen : List Nat)
    : (fieldBytes numbers).foldl scan ⟨fields, seen, 0⟩ = ⟨fields ++ [seen ++ numbers], [], 0⟩ := by
  induction numbers generalizing seen with
  | nil => simp [fieldBytes, scan]
  | cons number rest ih =>
      rw [fieldBytes, List.flatMap_cons, List.append_assoc, List.foldl_append, scan_number,
        ← fieldBytes, ih]
      simp

theorem scan_fields (more fields : List (List Nat))
    : (more.flatMap fieldBytes).foldl scan ⟨fields, [], 0⟩ = ⟨fields ++ more, [], 0⟩ := by
  induction more generalizing fields with
  | nil => simp
  | cons field rest ih =>
      rw [List.flatMap_cons, List.foldl_append, scan_field, ih]
      simp

theorem decode_encode (record : Record)
    : decode (encode record) = some record := by
  have scanned : ((encode record).foldl scan {}).fields = fields record := by
    rw [encode, List.foldl_append, List.foldl_cons]
    exact congrArg (fun seen => (scan seen 125).fields) (scan_fields (fields record) [])
  rw [decode, scanned, recordOf_fields, Option.filter_some, if_pos (by simp)]

theorem mem_body {record : Record} {byte : UInt8} (listed : byte ∈ body record)
    : byte = 49 ∨ byte = 44 ∨ byte = 59 := by
  obtain ⟨field, -, listed⟩ := List.mem_flatMap.mp listed
  rw [fieldBytes, List.mem_append, List.mem_flatMap, List.mem_singleton] at listed
  obtain ⟨number, -, listed⟩ | last := listed
  · rw [numberBytes, List.mem_append, List.mem_singleton] at listed
    exact listed.elim (fun one => Or.inl (List.eq_of_mem_replicate one)) (Or.inr ∘ Or.inl)
  · exact Or.inr (Or.inr last)

theorem not_mem_begin (record : Record)
    : (125 : UInt8) ∉ 123 :: body record := by
  simp only [List.mem_cons, not_or]
  refine ⟨by decide, fun listed => ?_⟩
  obtain same | same | same := mem_body listed <;> exact absurd same (by decide)

theorem eq_of_prefix_encode {record other : Record} (begins : encode other <+: encode record)
    : encode other = encode record := by
  rw [encode.eq_def record, List.prefix_concat_iff] at begins
  obtain same | within := begins
  · exact same
  · exact absurd (within.subset (by simp [encode])) (not_mem_begin record)

def records : Codec where
  encode := encode
  decode := decode
  decode_encode := decode_encode
  begins _ := rfl
  single record listed := by
    rw [encode, List.cons_append, List.mem_cons, List.mem_append, List.mem_singleton] at listed
    obtain same | listed | same := listed
    · exact absurd same (by decide)
    · obtain same | same | same := mem_body listed <;> exact absurd same (by decide)
    · exact absurd same (by decide)
  torn record part begins torn := by
    by_contra some_
    obtain ⟨other, read⟩ := Option.ne_none_iff_exists'.mp some_
    obtain ⟨-, same⟩ := Option.filter_eq_some_iff.mp read
    obtain rfl : encode other = part := by simpa using same
    exact torn (eq_of_prefix_encode begins)

end Unary

instance decidableSteadyLedger (codec : Codec)
    : ∀ (op : LedgerOp) (world : LedgerWorld), Decidable (LedgerWorld.Steady codec op world)
  | .persist records (.failed count), _ | .persist records (.crashed count), _ =>
      inferInstanceAs (Decidable (∀ _ ∈ _, _ → ∀ place < records.length,
        (encodeAll codec (records.take (place + 1))).length ≠ count + 1))
  | .persist _ .returned, _ | .load, _ | .crash, _ => inferInstanceAs (Decidable True)

/-- A write is cut in its second record, the process starts again, and the file is written anew. -/
def cutWithin : List LedgerOp :=
  [.load, .persist [.day 0 1] .returned, .persist [.day 0 2, .day 0 3] (.crashed 18), .load,
    .persist [.forget ⟨"run", "task", "name"⟩] .returned]

/-- What is read of the ledger are the records of the writes, up to the one that was cut. -/
theorem ledger_recovers_cutWithin
    : let world := (ledgerSystem Unary.records).outcome {} cutWithin
      (loadLedger Unary.records world.file).dayBytes = 2
        ∧ LedgerWorld.Recovered Unary.records world :=
  ⟨by decide +kernel, ledger_recovers Unary.records _ _ (.whole .start (by decide +kernel))⟩

/-- A write is cut just before the end of its line, and the process that starts again writes another. -/
def cutBeforeEnd : List LedgerOp :=
  [.load, .persist [.day 0 1] (.crashed 12), .load, .persist [.day 0 2] .returned]

theorem exists_of_kept {attempts : List (List Record × Bool)} {kept records : List Record}
    (keeps : Kept (attempts ++ [(records, true)]) kept)
    : ∃ front, kept = front ++ records := by
  generalize all : attempts ++ [(records, true)] = attempts' at keeps
  cases keeps with
  | none_ => exact absurd all (by simp)
  | @returned _ front earlier _ =>
      obtain ⟨-, same⟩ := List.append_inj' all rfl
      obtain rfl : records = _ := congrArg Prod.fst (List.singleton_inj.mp same)
      exact ⟨front, rfl⟩
  | cut earlier begins =>
      obtain ⟨-, same⟩ := List.append_inj' all rfl
      exact absurd (congrArg Prod.snd (List.singleton_inj.mp same)) nofun

/-- A write that returned is lost with the line that it was appended to. -/
theorem a_record_is_merged
    : ¬ ∀ (codec : Codec) (commits : List (Commit LedgerWorld LedgerOp)) (world : LedgerWorld),
        (ledgerSystem codec).History (fun _ _ => True) {} commits world →
          LedgerWorld.Recovered codec world := by
  intro recovers
  have recovered := recovers Unary.records _ _ (.whole .start (by decide : System.Permits _ _ _ cutBeforeEnd))
  obtain ⟨kept, keeps, same⟩ := recovered.loaded
  obtain ⟨front, rfl⟩ := @exists_of_kept [([.day 0 1], false)] _ [.day 0 2] keeps
  have bytes := same.dayBytes
  rw [Ledger.applyAll_append] at bytes
  have lost : (loadLedger Unary.records
      ((ledgerSystem Unary.records).outcome {} cutBeforeEnd).file).dayBytes = 0 := by decide +kernel
  exact absurd (lost.symm.trans bytes) nofun

end Dagron.Artifact
