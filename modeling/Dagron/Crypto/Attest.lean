import Mathlib.Data.List.Sort
import Mathlib.Data.String.Basic
import Std.Data.String.ToInt
import Dagron.Library.HashChain
import Dagron.Library.Prefixed
import Dagron.Library.Utf8

/-! What a run is attested to have executed: the digests of its tasks' commands and environments,
the chain that attestations make, and the comparison of two of them.
-/

namespace Dagron.Crypto

open Dagron.Library

-- Records

/-- What one task did. -/
structure TaskRecord where
  name
    : String
  status
    : String
  exitCode
    : Option Int := none
  commandDigest
    : String
  image
    : Option String := none
  envDigest
    : Option String := none
  isolationDigest
    : Option String := none
  outputDigest
    : Option String := none
  deriving DecidableEq

/-- The statement about one run; (prev) is the digest of the one before it. -/
structure Attestation where
  runId
    : String
  specDigest
    : String
  tasks
    : List TaskRecord
  prev
    : Option String := none
  deriving DecidableEq

/-- (firstDuplicateFrom seen) is the first task name that is among (seen) or an earlier task's. -/
def firstDuplicateFrom : List String → List TaskRecord → Option String
  | _, [] => none
  | seen, task :: rest =>
      if task.name ∈ seen then some task.name else firstDuplicateFrom (task.name :: seen) rest

/-- The first task name that appears more than once, if any. -/
def firstDuplicate (tasks : List TaskRecord) : Option String :=
  firstDuplicateFrom [] tasks

-- Digests

def leBytes (length : Nat) : List UInt8 :=
  (List.range 8).map (fun place => UInt8.ofNat (length / 256 ^ place))

def le64 : LengthHeader UInt8 where
  bytes := leBytes
  width := 8
  bound := 2 ^ 64
  width_pos := by decide
  length_bytes _ := by simp [leBytes]
  injective first second small small' same := by
    have places (place : Nat) (few : place < 8)
        : first / 256 ^ place % 256 = second / 256 ^ place % 256 := by
      have byte := List.map_inj_left.mp same place (List.mem_range.mpr few)
      simpa using congrArg UInt8.toNat byte
    have byte0 := places 0 (by decide)
    have byte1 := places 1 (by decide)
    have byte2 := places 2 (by decide)
    have byte3 := places 3 (by decide)
    have byte4 := places 4 (by decide)
    have byte5 := places 5 (by decide)
    have byte6 := places 6 (by decide)
    have byte7 := places 7 (by decide)
    omega

def pushLenPrefixed (buf : List UInt8) (field : String) : List UInt8 :=
  buf ++ le64.prefixed (utf8 field)

section Digests

variable (sha256Hex : List UInt8 → String)

def commandDigest (argv : List String) : String :=
  sha256Hex (argv.foldl pushLenPrefixed [])

/-- The digest of an environment: every name and value, in the order of the names. -/
def envDigest (env : List (String × String)) : String :=
  let pairs := env.mergeSort (fun first second => first.1 ≤ second.1)
  sha256Hex (pairs.foldl
    (fun buf (name, value) => pushLenPrefixed (pushLenPrefixed buf name) value) [])

-- The chain

/-- An attestation whose signature checked out: what was read from the bytes that were signed,
and their digest.
-/
structure VerifiedAttestation (parse : List UInt8 → Option Attestation) where
  attestation
    : Attestation
  bytes
    : List UInt8
  digest
    : String
  parsed
    : parse bytes = some attestation
  digested
    : digest = sha256Hex bytes

variable {sha256Hex} {parse : List UInt8 → Option Attestation}

/-- Refuses a record that does not name the one before it. -/
def checkLink (earlier later : VerifiedAttestation sha256Hex parse) : Except String Unit :=
  match later.attestation.prev with
  | some prev =>
      if prev = earlier.digest then .ok ()
      else .error ("attestation chain broken at run '" ++ later.attestation.runId
        ++ "': prev is " ++ prev ++ " but the preceding record (run '"
        ++ earlier.attestation.runId ++ "') digests to " ++ earlier.digest)
  | none => .error ("attestation chain broken at run '" ++ later.attestation.runId
      ++ "': it claims to be a genesis record but follows run '" ++ earlier.attestation.runId
      ++ "'")

/-- Checks that each record of a chain, oldest first, names the one before it. -/
def verifyChain : List (VerifiedAttestation sha256Hex parse) → Except String Unit
  | earlier :: later :: rest => do
      checkLink earlier later
      verifyChain (later :: rest)
  | _ => .ok ()

end Digests

-- Comparison

/-- Which of two compared runs. -/
inductive WhichRun where
  | a
  | b
  deriving DecidableEq, Repr

/-- One way in which two attestations disagree. -/
inductive Divergence where
  | specDigest (a b : String)
  | taskOnlyIn (run : WhichRun) (task : String)
  | inputDrift (task field a b : String)
  | outputDrift (task field a b : String)
  | duplicateTask (run : WhichRun) (task : String)
  deriving DecidableEq, Repr

def index (tasks : List TaskRecord) : List TaskRecord :=
  tasks.mergeSort (fun first second => first.name ≤ second.name)

def lookup (tasks : List TaskRecord) (name : String) : Option TaskRecord :=
  tasks.find? (fun task => task.name = name)

def onlyIn (run : WhichRun) (own other : List TaskRecord) : List Divergence :=
  (own.filter (fun task => (lookup other task.name).isNone)).map
    (fun task => .taskOnlyIn run task.name)

def drift (make : String → String → Divergence) (a b : String) : List Divergence :=
  if a ≠ b then [make a b] else []

/-- What two runs of one task disagree in, of what it was given and of what came of it. -/
def taskDiff (a b : TaskRecord) : List Divergence :=
  let input (field : String) := drift (.inputDrift a.name field)
  let output (field : String) := drift (.outputDrift a.name field)
  input "command_digest" a.commandDigest b.commandDigest
    ++ input "image" (a.image.getD "") (b.image.getD "")
    ++ input "env_digest" (a.envDigest.getD "") (b.envDigest.getD "")
    ++ input "isolation_digest" (a.isolationDigest.getD "") (b.isolationDigest.getD "")
    ++ output "status" a.status b.status
    ++ output "output_digest" (a.outputDigest.getD "") (b.outputDigest.getD "")
    ++ output "exit_code" ((a.exitCode.map toString).getD "") ((b.exitCode.map toString).getD "")

/-- The task names that are twice in one of two attestations. -/
def duplicates (a b : Attestation) : List Divergence :=
  (firstDuplicate a.tasks).toList.map (.duplicateTask .a)
    ++ (firstDuplicate b.tasks).toList.map (.duplicateTask .b)

/-- Compares two attestations of nominally the same work. -/
def replayDiff (a b : Attestation) : List Divergence :=
  let spec := drift .specDigest a.specDigest b.specDigest
  if duplicates a b ≠ [] then spec ++ duplicates a b
  else
    let ia := index a.tasks
    let ib := index b.tasks
    spec ++ onlyIn .a ia ib ++ onlyIn .b ib ia
      ++ ia.flatMap (fun own => ((lookup ib own.name).map (taskDiff own)).getD [])

-- What the digests tell apart

/-- Texts whose length is one that a program's memory can hold. -/
def TextsFit (texts : List String) : Prop :=
  ∀ text ∈ texts, text.utf8ByteSize < 2 ^ 64

theorem TextsFit.fits {texts : List String} (fit : TextsFit texts)
    : le64.Fits (texts.map utf8) := by
  intro field listed
  obtain ⟨text, among, rfl⟩ := List.mem_map.mp listed
  rw [length_utf8]
  exact fit text among

theorem foldl_pushLenPrefixed (texts : List String) (buf : List UInt8)
    : texts.foldl pushLenPrefixed buf = buf ++ le64.encode (texts.map utf8) := by
  induction texts generalizing buf with
  | nil => simp [LengthHeader.encode]
  | cons text rest ih => simp [ih, pushLenPrefixed, LengthHeader.encode]

theorem pushed_inj {texts others : List String} (fit : TextsFit texts) (fit' : TextsFit others)
    (same : texts.foldl pushLenPrefixed [] = others.foldl pushLenPrefixed [])
    : texts = others := by
  rw [foldl_pushLenPrefixed, foldl_pushLenPrefixed] at same
  have fields := LengthHeader.encode_inj fit.fits fit'.fits same
  exact List.map_injective_iff.mpr utf8_injective fields

/-- The names and values of an environment, as they are written. -/
def flatPairs (env : List (String × String)) : List String :=
  env.flatMap (fun pair => [pair.1, pair.2])

theorem flatPairs_injective
    : Function.Injective flatPairs := by
  intro env other same
  induction env generalizing other with
  | nil => cases other <;> simp_all [flatPairs]
  | cons pair rest ih =>
      cases other with
      | nil => simp [flatPairs] at same
      | cons pair' rest' =>
          simp only [flatPairs, List.flatMap_cons, List.cons_append, List.nil_append,
            List.cons.injEq] at same
          obtain ⟨name, value, tail⟩ := same
          rw [ih tail, Prod.ext name value]

theorem foldl_pairs (env : List (String × String)) (buf : List UInt8)
    : env.foldl (fun buf (name, value) => pushLenPrefixed (pushLenPrefixed buf name) value) buf
      = (flatPairs env).foldl pushLenPrefixed buf := by
  induction env generalizing buf with
  | nil => rfl
  | cons pair rest ih => exact ih _

/-- The names and values of an environment whose lengths a program's memory can hold. -/
def EnvFits (env : List (String × String)) : Prop :=
  TextsFit (flatPairs env)

def nameLe (first second : String × String) : Bool :=
  first.1 ≤ second.1

theorem sortedEnv_pairwise (env : List (String × String))
    : (env.mergeSort nameLe).Pairwise (fun first second => nameLe first second) :=
  List.pairwise_mergeSort (fun _ _ _ => by simpa [nameLe] using le_trans)
    (fun _ _ => by simpa [nameLe] using le_total _ _) env

theorem sortedEnv_eq {env other : List (String × String)} (distinct : (env.map Prod.fst).Nodup)
    (perm : env.Perm other)
    : env.mergeSort nameLe = other.mergeSort nameLe := by
  have sorted := (List.mergeSort_perm env nameLe).trans (perm.trans (List.mergeSort_perm other nameLe).symm)
  refine sorted.eq_of_pairwise ?_ (sortedEnv_pairwise env) (sortedEnv_pairwise other)
  intro first second listed listed' le le'
  have names : first.1 = second.1 := by
    simp only [nameLe, decide_eq_true_eq] at le le'
    exact le_antisymm le le'
  have within := (List.mergeSort_perm env nameLe).mem_iff.mp listed
  have within' := perm.mem_iff.mpr ((List.mergeSort_perm other nameLe).mem_iff.mp listed')
  exact List.inj_on_of_nodup_map distinct within within' names

section Digests

variable {sha256Hex : List UInt8 → String} (injective : Function.Injective sha256Hex)

include injective

theorem commandDigest_inj {argv other : List String} (fit : TextsFit argv)
    (fit' : TextsFit other) (same : commandDigest sha256Hex argv = commandDigest sha256Hex other)
    : argv = other :=
  pushed_inj fit fit' (injective same)

theorem envDigest_inj {env other : List (String × String)} (fit : EnvFits env)
    (fit' : EnvFits other) (same : envDigest sha256Hex env = envDigest sha256Hex other)
    : env.Perm other := by
  have sorted {env : List (String × String)} (fit : EnvFits env)
      : TextsFit (flatPairs (env.mergeSort nameLe)) := by
    intro text listed
    obtain ⟨pair, among, text_⟩ := List.mem_flatMap.mp listed
    exact fit text (List.mem_flatMap.mpr ⟨pair, (List.mergeSort_perm env nameLe).mem_iff.mp among, text_⟩)
  have pushed := injective same
  rw [foldl_pairs, foldl_pairs] at pushed
  have alike := flatPairs_injective (pushed_inj (sorted fit) (sorted fit') pushed)
  have perm := List.mergeSort_perm env nameLe
  rw [alike] at perm
  exact perm.symm.trans (List.mergeSort_perm other nameLe)

omit injective in
theorem envDigest_perm {env other : List (String × String)}
    (distinct : (env.map Prod.fst).Nodup) (perm : env.Perm other)
    : envDigest sha256Hex env = envDigest sha256Hex other := by
  have sorted := sortedEnv_eq distinct perm
  unfold nameLe at sorted
  simp only [envDigest, sorted]

-- What the chain tells apart

variable {parse : List UInt8 → Option Attestation}

theorem digest_injective
    : Function.Injective (@VerifiedAttestation.digest sha256Hex parse) := by
  intro first second same
  obtain ⟨attestation, bytes, digest, parsed, digested⟩ := first
  obtain ⟨attestation', bytes', digest', parsed', digested'⟩ := second
  have bytes_ : bytes = bytes' := injective (digested.symm.trans (same.trans digested'))
  subst bytes_
  obtain rfl := Option.some.inj (parsed.symm.trans parsed')
  obtain rfl : digest = digest' := same
  rfl

omit injective in
theorem verifyChain_eq_ok {chain : List (VerifiedAttestation sha256Hex parse)}
    : verifyChain chain = .ok ()
      ↔ HashChain VerifiedAttestation.digest (fun record => record.attestation.prev) chain := by
  have link {earlier later : VerifiedAttestation sha256Hex parse}
      : checkLink earlier later = .ok () ↔ later.attestation.prev = some earlier.digest := by
    unfold checkLink
    split
    case h_1 prev named =>
      rw [named]
      by_cases same : prev = earlier.digest <;> simp [same]
    case h_2 none_ => simp [none_]
  induction chain with
  | nil => simp [verifyChain, HashChain]
  | cons earlier rest ih =>
      cases rest with
      | nil => simp [verifyChain, HashChain]
      | cons later rest =>
          rw [HashChain, List.isChain_cons_cons, ← link]
          cases linked : checkLink earlier later with
          | error message => simp [verifyChain, linked, bind, Except.bind]
          | ok =>
              simp only [verifyChain, linked, bind, Except.bind, true_and]
              exact ih

/-- Whether a chain's first record is a genesis record, or names one that is not in it. -/
def Windowed (chain : List (VerifiedAttestation sha256Hex parse)) : Prop :=
  Anchored VerifiedAttestation.digest (fun record => record.attestation.prev) chain

section Chain

variable {chain other before within after : List (VerifiedAttestation sha256Hex parse)}
  {record record' : VerifiedAttestation sha256Hex parse}

theorem reorder_refused (windowed : Windowed chain) (accepted : verifyChain chain = .ok ())
    (perm : other.Perm chain) (accepted' : verifyChain other = .ok ())
    : other = chain :=
  (verifyChain_eq_ok.mp accepted).eq_of_perm (digest_injective injective)
    (verifyChain_eq_ok.mp accepted') windowed perm

theorem between_refused (windowed : Windowed (before ++ within ++ after))
    (accepted : verifyChain (before ++ within ++ after) = .ok ())
    (start : before ≠ []) (more : within ≠ []) (rest : after ≠ [])
    : verifyChain (before ++ after) ≠ .ok () := by
  intro accepted'
  have windowed' : Windowed (before ++ after) := by
    intro first head record listed
    refine windowed first ?_ record ?_
    · cases before <;> simp_all
    · rcases List.mem_append.mp listed with early | late <;> simp_all
  have same := (verifyChain_eq_ok.mp accepted').eq_of_ends (digest_injective injective)
    (verifyChain_eq_ok.mp accepted) windowed' windowed
    (by cases before <;> simp_all)
    (by rw [List.getLast?_append_of_ne_nil _ rest, List.getLast?_append_of_ne_nil _ rest])
  have lengths := congrArg List.length same
  simp only [List.length_append] at lengths
  exact more (List.length_eq_zero_iff.mp (by omega))

theorem alteration_refused (accepted : verifyChain (before ++ record :: after) = .ok ())
    (altered : record' ≠ record) (rest : after ≠ [])
    : verifyChain (before ++ record' :: after) ≠ .ok () := by
  intro accepted'
  have same := (verifyChain_eq_ok.mp accepted').eq_of_length (digest_injective injective)
    (verifyChain_eq_ok.mp accepted)
    (by simp [List.getLast?_append, List.getLast?_cons, List.getLast?_eq_some_getLast rest])
    (by simp)
  exact altered (List.cons.inj (List.append_cancel_left same)).1

end Chain

end Digests

-- What a comparison tells apart

def BothEmptyOr (first second : Option String) : Prop :=
  first = second ∨ first.getD "" = "" ∧ second.getD "" = ""

/-- Two records of one task that agree in all that is compared, the fields that may be absent as
(Same) says.
-/
structure TaskRecord.SameWork (Same : Option String → Option String → Prop)
    (a b : TaskRecord) : Prop where
  commandDigest
    : a.commandDigest = b.commandDigest
  image
    : Same a.image b.image
  envDigest
    : Same a.envDigest b.envDigest
  isolationDigest
    : Same a.isolationDigest b.isolationDigest
  status
    : a.status = b.status
  outputDigest
    : Same a.outputDigest b.outputDigest
  exitCode
    : a.exitCode = b.exitCode

/-- Two attestations of the same work: one specification, the same distinct task names, and each
task's two records agree.
-/
structure Attestation.SameReplay (Same : Option String → Option String → Prop)
    (a b : Attestation) : Prop where
  distinct
    : (a.tasks.map TaskRecord.name).Nodup
  distinct'
    : (b.tasks.map TaskRecord.name).Nodup
  spec
    : a.specDigest = b.specDigest
  names
    : ∀ name, name ∈ a.tasks.map TaskRecord.name ↔ name ∈ b.tasks.map TaskRecord.name
  tasks
    : ∀ own ∈ a.tasks, ∀ other ∈ b.tasks, own.name = other.name → own.SameWork Same other

theorem getD_eq_getD {first second : Option String}
    : first.getD "" = second.getD "" ↔ BothEmptyOr first second := by
  unfold BothEmptyOr
  cases first <;> cases second <;> simp_all [eq_comm]

theorem exitCode_eq {first second : Option Int}
    : (first.map toString).getD "" = (second.map toString).getD "" ↔ first = second := by
  have some_ (code : Int) : code.repr ≠ "" := by
    rw [Int.repr_eq_if]
    split_ifs <;> simp
  have apart (code : Int) : "" ≠ code.repr := (some_ code).symm
  cases first <;> cases second <;> simp [some_, apart, Int.toString_eq_repr]

theorem drift_eq_nil {make : String → String → Divergence} {a b : String}
    : drift make a b = [] ↔ a = b := by
  unfold drift
  split_ifs with apart <;> simp_all

theorem taskDiff_eq_nil {a b : TaskRecord}
    : taskDiff a b = [] ↔ a.SameWork BothEmptyOr b := by
  simp only [taskDiff, List.append_eq_nil_iff, drift_eq_nil, exitCode_eq]
  simp only [getD_eq_getD]
  constructor
  · rintro ⟨⟨⟨⟨⟨⟨command, image⟩, env⟩, isolation⟩, status⟩, output⟩, code⟩
    exact ⟨command, image, env, isolation, status, output, code⟩
  · intro same
    exact ⟨⟨⟨⟨⟨⟨same.commandDigest, same.image⟩, same.envDigest⟩, same.isolationDigest⟩,
      same.status⟩, same.outputDigest⟩, same.exitCode⟩

theorem firstDuplicate_eq_none {tasks : List TaskRecord}
    : firstDuplicate tasks = none ↔ (tasks.map TaskRecord.name).Nodup := by
  have from_ (seen : List String) : firstDuplicateFrom seen tasks = none
      ↔ (tasks.map TaskRecord.name).Nodup ∧ ∀ task ∈ tasks, task.name ∉ seen := by
    induction tasks generalizing seen with
    | nil => simp [firstDuplicateFrom]
    | cons task rest ih =>
        by_cases twice : task.name ∈ seen
        · simp [firstDuplicateFrom, twice]
        · simp only [firstDuplicateFrom, twice, if_false, ih, List.map_cons, List.nodup_cons,
            List.mem_map, List.mem_cons, not_or, forall_eq_or_imp, not_exists, not_and, true_and,
            not_false_eq_true]
          grind
  simp [firstDuplicate, from_]

theorem duplicates_eq_nil {a b : Attestation}
    : duplicates a b = [] ↔ (a.tasks.map TaskRecord.name).Nodup
      ∧ (b.tasks.map TaskRecord.name).Nodup := by
  simp [duplicates, List.append_eq_nil_iff, Option.toList_eq_nil_iff, firstDuplicate_eq_none]

theorem mem_index {tasks : List TaskRecord} {task : TaskRecord}
    : task ∈ index tasks ↔ task ∈ tasks :=
  (List.mergeSort_perm _ _).mem_iff

theorem lookup_index_isNone {tasks : List TaskRecord} {name : String}
    : (lookup (index tasks) name).isNone ↔ name ∉ tasks.map TaskRecord.name := by
  simp [lookup, mem_index]

theorem lookup_index {tasks : List TaskRecord} (distinct : (tasks.map TaskRecord.name).Nodup)
    {task : TaskRecord} {name : String}
    : lookup (index tasks) name = some task ↔ task ∈ tasks ∧ task.name = name := by
  constructor
  · intro found
    exact ⟨mem_index.mp (List.mem_of_find?_eq_some found), by simpa using List.find?_some found⟩
  · rintro ⟨listed, rfl⟩
    cases found : lookup (index tasks) task.name with
    | none =>
        have missing := lookup_index_isNone.mp (Option.isNone_iff_eq_none.mpr found)
        exact absurd (List.mem_map_of_mem listed) missing
    | some other =>
        have same : other.name = task.name := by simpa using List.find?_some found
        rw [List.inj_on_of_nodup_map distinct (mem_index.mp (List.mem_of_find?_eq_some found)) listed same]

theorem onlyIn_eq_nil {run : WhichRun} {own other : List TaskRecord}
    : onlyIn run (index own) (index other) = []
      ↔ ∀ name ∈ own.map TaskRecord.name, name ∈ other.map TaskRecord.name := by
  simp only [onlyIn, List.map_eq_nil_iff, List.filter_eq_nil_iff, mem_index, lookup_index_isNone,
    not_not, List.forall_mem_map]

/-- A comparison shows no difference exactly where two attestations are of the same work, up to
fields that are absent in one and empty in the other.
-/
theorem replayDiff_eq_nil {a b : Attestation}
    : replayDiff a b = [] ↔ a.SameReplay BothEmptyOr b := by
  unfold replayDiff
  by_cases twice : duplicates a b = []
  · obtain ⟨distinct, distinct'⟩ := duplicates_eq_nil.mp twice
    have pairs : (index a.tasks).flatMap
        (fun own => ((lookup (index b.tasks) own.name).map (taskDiff own)).getD []) = []
        ↔ ∀ own ∈ a.tasks, ∀ other ∈ b.tasks, own.name = other.name →
          own.SameWork BothEmptyOr other := by
      simp only [List.flatMap_eq_nil_iff, mem_index]
      refine forall₂_congr fun own listed => ?_
      cases found : lookup (index b.tasks) own.name with
      | none =>
          have missing := lookup_index_isNone.mp (Option.isNone_iff_eq_none.mpr found)
          simp only [Option.map_none, Option.getD_none, true_iff]
          intro other among same
          exact absurd (same ▸ List.mem_map_of_mem among) missing
      | some other =>
          have found' {task : TaskRecord}
              : lookup (index b.tasks) own.name = some task ↔ task ∈ b.tasks ∧ task.name = own.name :=
            lookup_index distinct'
          simp only [Option.map_some, Option.getD_some, taskDiff_eq_nil]
          constructor
          · intro same other' among name
            obtain rfl := Option.some.inj (found.symm.trans (found'.mpr ⟨among, name.symm⟩))
            exact same
          · intro same
            obtain ⟨among, name⟩ := found'.mp found
            exact same other among name.symm
    simp only [twice, ne_eq, not_true, if_false, List.append_eq_nil_iff, drift_eq_nil, onlyIn_eq_nil, pairs]
    constructor
    · rintro ⟨⟨⟨spec, names⟩, names'⟩, tasks⟩
      exact ⟨distinct, distinct', spec, fun name => ⟨names name, names' name⟩, tasks⟩
    · intro same
      exact ⟨⟨⟨same.spec, fun name => (same.names name).mp⟩, fun name => (same.names name).mpr⟩,
        same.tasks⟩
  · simp only [ne_eq, twice, not_false_eq_true, if_true, List.append_eq_nil_iff, and_false, false_iff]
    intro same
    exact twice (duplicates_eq_nil.mpr ⟨same.distinct, same.distinct'⟩)

-- Attestations

theorem Attestation.SameReplay.blur {a b : Attestation} (same : a.SameReplay (· = ·) b)
    : a.SameReplay BothEmptyOr b where
  distinct := same.distinct
  distinct' := same.distinct'
  spec := same.spec
  names := same.names
  tasks own listed other among name :=
    have work := same.tasks own listed other among name
    ⟨work.commandDigest, .inl work.image, .inl work.envDigest, .inl work.isolationDigest,
      work.status, .inl work.outputDigest, work.exitCode⟩

/-- With digests that do not collide: attestations of the same work show no difference, and ones
that show none are of the same work, up to fields absent in one and empty in the other; a
command's digest settles its arguments, and an environment's its pairs, in whatever order they
are given; and in an accepted chain that starts at its window's edge no record can be taken from
between others, put between others, moved, or, where another follows it, altered.
-/
theorem attestations_tell_apart {sha256Hex : List UInt8 → String}
    (injective : Function.Injective sha256Hex) (parse : List UInt8 → Option Attestation)
    : (∀ a b : Attestation, (a.SameReplay (· = ·) b → replayDiff a b = [])
        ∧ (replayDiff a b = [] → a.SameReplay BothEmptyOr b))
      ∧ (∀ argv other, TextsFit argv → TextsFit other →
        commandDigest sha256Hex argv = commandDigest sha256Hex other → argv = other)
      ∧ (∀ env other, EnvFits env → EnvFits other →
        envDigest sha256Hex env = envDigest sha256Hex other → env.Perm other)
      ∧ (∀ env other : List (String × String), (env.map Prod.fst).Nodup → env.Perm other →
        envDigest sha256Hex env = envDigest sha256Hex other)
      ∧ (∀ chain other : List (VerifiedAttestation sha256Hex parse), Windowed chain →
        verifyChain chain = .ok () → other.Perm chain → verifyChain other = .ok () →
        other = chain)
      ∧ (∀ before within after : List (VerifiedAttestation sha256Hex parse),
        before ≠ [] → within ≠ [] → after ≠ [] → Windowed (before ++ within ++ after) →
        ¬ (verifyChain (before ++ within ++ after) = .ok ()
          ∧ verifyChain (before ++ after) = .ok ()))
      ∧ ∀ (before after : List (VerifiedAttestation sha256Hex parse))
        (record record' : VerifiedAttestation sha256Hex parse), after ≠ [] → record' ≠ record →
        verifyChain (before ++ record :: after) = .ok () →
        verifyChain (before ++ record' :: after) ≠ .ok () := by
  refine ⟨fun a b => ⟨fun same => replayDiff_eq_nil.mpr same.blur, replayDiff_eq_nil.mp⟩,
    fun argv other fit fit' => commandDigest_inj injective fit fit',
    fun env other fit fit' => envDigest_inj injective fit fit',
    fun env other => envDigest_perm, fun chain other windowed accepted perm accepted' =>
      reorder_refused injective windowed accepted perm accepted', ?_, ?_⟩
  · rintro before within after start more rest windowed ⟨accepted, accepted'⟩
    exact between_refused injective windowed accepted start more rest accepted'
  · intro before after record record' rest altered accepted
    exact alteration_refused injective accepted altered rest

/-- Digests of no two alike, and of two texts the ones they have. -/
def sampleDigest (bytes : List UInt8) : String :=
  if bytes = [] then "e3b0c44298fc1c149afbf4c8996fb92427ae41e4649b934ca495991b7852b855"
  else if bytes = [4, 0, 0, 0, 0, 0, 0, 0, 116, 114, 117, 101] then
    "46d058fc4ef77f3fd874fde10d5335b24dbbb60eb4f66d45d732ab1c5b0d7250"
  else String.ofList ('!' :: bytes.map Char.ofUInt8)

theorem sampleDigest_injective
    : Function.Injective sampleDigest := by
  have chars : Function.Injective Char.ofUInt8 := by
    intro first second same
    have values : first.toUInt32 = second.toUInt32 := congrArg Char.val same
    have bytes := congrArg UInt32.toNat values
    rwa [UInt8.toNat_toUInt32, UInt8.toNat_toUInt32, UInt8.toNat_inj] at bytes
  have marked (text : List Char) (digest : String) (other : digest.toList.head? ≠ some '!')
      : digest ≠ String.ofList ('!' :: text) := by
    rintro rfl
    simp at other
  intro first second same
  unfold sampleDigest at same
  split_ifs at same with none_ none_' true_ true_' true_ true_'
  all_goals first
    | exact absurd same (by decide)
    | exact absurd same (marked _ _ (by decide))
    | exact absurd same.symm (marked _ _ (by decide))
    | simp_all
  exact List.map_injective_iff.mpr chars (String.ofList_injective same)

/-- A command of one argument is no empty command. -/
theorem attestations_tell_apart_true
    : commandDigest sampleDigest [] ≠ commandDigest sampleDigest ["true"] := by
  intro same
  have argv := (attestations_tell_apart sampleDigest_injective (fun _ => none)).2.1 [] ["true"]
    (by simp [TextsFit]) (by simp [TextsFit]; decide) same
  cases argv

/-- A task's record, of an image that is not recorded, or of one whose name is empty. -/
def imageRecord (image : Option String) : Attestation where
  runId := "run"
  specDigest := "spec"
  tasks := [{ name := "build", status := "succeeded", commandDigest := "command", image := image }]

/-- A reader of three records: a genesis record, and two that name it. -/
def readSample (bytes : List UInt8) : Option Attestation :=
  match bytes with
  | [0] => some ⟨"first", "spec", [], none⟩
  | [1] => some ⟨"second", "spec", [], some (sampleDigest [0])⟩
  | [2] => some ⟨"altered", "spec", [], some (sampleDigest [0])⟩
  | _ => none

/-- A comparison does not see whether a field is absent or empty, and a chain does not say which
record ends it.
-/
theorem not_attestations_tell_apart
    : (¬ ∀ a b : Attestation, replayDiff a b = [] ↔ a.SameReplay (· = ·) b)
      ∧ ¬ ∀ (sha256Hex : List UInt8 → String) (parse : List UInt8 → Option Attestation),
        Function.Injective sha256Hex →
        ∀ (before after : List (VerifiedAttestation sha256Hex parse))
          (record record' : VerifiedAttestation sha256Hex parse), record' ≠ record →
          verifyChain (before ++ record :: after) = .ok () →
          verifyChain (before ++ record' :: after) ≠ .ok () := by
  constructor
  · intro claim
    have same : (imageRecord none).SameReplay BothEmptyOr (imageRecord (some "")) := by
      constructor <;> simp [imageRecord]
      constructor <;> simp [BothEmptyOr]
    have differ := ((claim _ _).mp (replayDiff_eq_nil.mpr same)).tasks _ (List.mem_singleton_self _)
      _ (List.mem_singleton_self _) rfl
    cases differ.image
  · intro claim
    let genesis : VerifiedAttestation sampleDigest readSample := ⟨_, [0], _, rfl, rfl⟩
    let second : VerifiedAttestation sampleDigest readSample := ⟨_, [1], _, rfl, rfl⟩
    let altered : VerifiedAttestation sampleDigest readSample := ⟨_, [2], _, rfl, rfl⟩
    have apart : altered ≠ second := by
      intro same
      exact absurd (congrArg VerifiedAttestation.bytes same) (by decide)
    exact claim sampleDigest readSample sampleDigest_injective [genesis] [] second altered apart
      (by simp [verifyChain, checkLink, genesis, second, bind, Except.bind])
      (by simp [verifyChain, checkLink, genesis, altered, bind, Except.bind])

end Dagron.Crypto
