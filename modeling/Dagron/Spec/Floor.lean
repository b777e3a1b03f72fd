import Dagron.Library.Numbered
import Dagron.Library.OrderedMap
import Dagron.Library.Texts
import Dagron.Spec.Isolation
import Mathlib.Data.String.Basic

/-! Envelopes as text: what is written of one, and the floor that is read from such a text.
-/

namespace Dagron.Spec

open Dagron.Library

-- Writing

/-- A number of 64 bits with a sign, in decimal digits. -/
def i64Text (number : Int) : List Char :=
  if number < 0 then '-' :: decimal number.natAbs else decimal number.natAbs

def Seccomp.spelling : Seccomp → String
  | unconfined => "unconfined"
  | runtimeDefault => "runtime_default"

/-- The fields of a text, with one more where it is set. -/
def putField (key : String) (value : Option String) (fields : OrderedMap String String)
    : OrderedMap String String :=
  match value with
  | some value => fields.insert key value
  | none => fields

/-- The fields of an envelope that are set, each by its key. -/
def IsolationSpec.canonicalFields (spec : IsolationSpec) : OrderedMap String String :=
  let fields := OrderedMap.empty
  let fields := putField "runtime_class" spec.runtimeClass fields
  let fields := putField "seccomp" (spec.seccomp.map Seccomp.spelling) fields
  let fields := putField "read_only_root_fs" (spec.readOnlyRootFs.map toString) fields
  let fields := putField "no_new_privileges" (spec.noNewPrivileges.map toString) fields
  let fields := putField "drop_all_capabilities" (spec.dropAllCapabilities.map toString) fields
  let fields := putField "run_as_non_root" (spec.runAsNonRoot.map toString) fields
  let fields := putField "run_as_user" (spec.runAsUser.map fun uid => String.ofList (i64Text uid)) fields
  let fields := putField "service_account_token" (spec.serviceAccountToken.map toString) fields
  putField "network" (spec.network.map Network.label) fields

def fieldText (field : String × String) : List Char :=
  field.1.toList ++ '=' :: field.2.toList

/-- The text of an envelope, from which its digest is made and which says what a task ran under. -/
def IsolationSpec.canonical (spec : IsolationSpec) : String :=
  String.ofList (['\n'].intercalate (spec.canonicalFields.entries.map fieldText))

-- Reading

/-- A number of 64 bits with a sign, from its decimal digits. -/
def parseI64 (text : List Char) : Option Int :=
  let digits := if text.head? = some '-' ∨ text.head? = some '+' then text.tail else text
  let size : Int := Nat.ofDigitChars 10 digits 0
  let number := if text.head? = some '-' then -size else size
  if digits ≠ [] ∧ digits.all Char.isDigit ∧ -2 ^ 63 ≤ number ∧ number < 2 ^ 63 then some number else none

def Network.parse (raw : String) : Except String Network :=
  if raw = "default" then .ok .default
  else if raw = "none" then .ok .none
  else
    match dropStart "allow:".toList raw.toList with
    | some name => do
        validAllowlistName (String.ofList name)
        return .allow (String.ofList name)
    | Option.none => .error ("expects none|default|allow:<name>, got '" ++ raw ++ "'")

def floorBool (key value : String) : Except String Bool :=
  if value ∈ ["true", "1", "yes", "on"] then .ok true
  else if value ∈ ["false", "0", "no", "off"] then .ok false
  else .error ("isolation floor '" ++ key ++ "' expects a boolean, got '" ++ value ++ "'")

def floorSeccomp (value : String) : Except String Seccomp :=
  if value = "runtime_default" then .ok .runtimeDefault
  else if value = "unconfined" then .ok .unconfined
  else .error ("isolation floor 'seccomp' expects runtime_default|unconfined, got '" ++ value ++ "'")

def floorUser (value : String) : Except String Int :=
  match parseI64 value.toList with
  | some uid => .ok uid
  | none => .error ("isolation floor 'run_as_user' expects an integer, got '" ++ value ++ "'")

def floorNetwork (value : String) : Except String Network :=
  (Network.parse value).mapError fun why => "isolation floor 'network' " ++ why

def readField (spec : IsolationSpec) (key value : String) : Except String IsolationSpec :=
  match key with
  | "runtime_class" => .ok { spec with runtimeClass := some value }
  | "seccomp" => do return { spec with seccomp := some (← floorSeccomp value) }
  | "read_only_root_fs" => do return { spec with readOnlyRootFs := some (← floorBool key value) }
  | "no_new_privileges" => do return { spec with noNewPrivileges := some (← floorBool key value) }
  | "drop_all_capabilities" => do return { spec with dropAllCapabilities := some (← floorBool key value) }
  | "run_as_non_root" => do return { spec with runAsNonRoot := some (← floorBool key value) }
  | "run_as_user" => do return { spec with runAsUser := some (← floorUser value) }
  | "service_account_token" => do return { spec with serviceAccountToken := some (← floorBool key value) }
  | "network" => do return { spec with network := some (← floorNetwork value) }
  | other =>
      .error ("unknown isolation floor key '" ++ other ++ "' — a floor with a typo in it is a floor "
        ++ "that is not in force")

def readEntry (spec : IsolationSpec) (entry : List Char) : Except String IsolationSpec :=
  match splitOnce ['='] entry with
  | none => .error ("isolation floor entry '" ++ String.ofList entry ++ "' is not key=value")
  | some (key, value) => readField spec (String.ofList (trim key)) (String.ofList (trim value))

def IsolationSpec.hardened : IsolationSpec :=
  { seccomp := some .runtimeDefault
    readOnlyRootFs := some true
    noNewPrivileges := some true
    dropAllCapabilities := some true
    runAsNonRoot := some true
    serviceAccountToken := some false }

/-- Whether a character is between two entries of a floor. -/
def endsEntry (char : Char) : Bool :=
  char == ',' || char == '\n'

def floorEntries (raw : List Char) : List (List Char) :=
  ((raw.splitOnP endsEntry).map trim).filter fun entry => ¬ entry.isEmpty

/-- A floor from its text: the name of the preset, or entries between commas or line ends. -/
def parseFloor (raw : String) : Except String IsolationSpec :=
  let raw := trim raw.toList
  if raw.map Char.toLower = "hardened".toList then .ok .hardened
  else do
    let spec ← (floorEntries raw).foldlM readEntry {}
    spec.validate
    return spec

-- The fields that are written

def IsolationSpec.written (spec : IsolationSpec) : String → Option String
  | "runtime_class" => spec.runtimeClass
  | "seccomp" => spec.seccomp.map Seccomp.spelling
  | "read_only_root_fs" => spec.readOnlyRootFs.map toString
  | "no_new_privileges" => spec.noNewPrivileges.map toString
  | "drop_all_capabilities" => spec.dropAllCapabilities.map toString
  | "run_as_non_root" => spec.runAsNonRoot.map toString
  | "run_as_user" => spec.runAsUser.map fun uid => String.ofList (i64Text uid)
  | "service_account_token" => spec.serviceAccountToken.map toString
  | "network" => spec.network.map Network.label
  | _ => none

theorem get?_putField (key other : String) (value : Option String) (fields : OrderedMap String String)
    : (putField key value fields).get? other
      = (if other = key then value else none).or (fields.get? other) := by
  cases value with
  | none => rw [ite_self, Option.none_or]; rfl
  | some value =>
      rw [putField, OrderedMap.get?_insert]
      split <;> rfl

theorem get?_canonicalFields (spec : IsolationSpec) (key : String)
    : spec.canonicalFields.get? key = spec.written key := by
  have empty (key : String) : (OrderedMap.empty : OrderedMap String String).get? key = none := rfl
  simp only [IsolationSpec.canonicalFields, get?_putField, empty]
  fun_cases IsolationSpec.written spec key <;> simp_all

def fieldKeys : List String :=
  ["runtime_class", "seccomp", "read_only_root_fs", "no_new_privileges", "drop_all_capabilities",
    "run_as_non_root", "run_as_user", "service_account_token", "network"]

theorem mem_fieldKeys {spec : IsolationSpec} {key value : String} (written : spec.written key = some value)
    : key ∈ fieldKeys := by
  unfold IsolationSpec.written at written
  split at written <;> first | decide | cases written

-- Spellings

theorem parseI64_i64Text {number : Int} (low : -2 ^ 63 ≤ number) (high : number < 2 ^ 63)
    : parseI64 (i64Text number) = some number := by
  have digits : (decimal number.natAbs).all Char.isDigit := by
    rw [List.all_eq_true]
    exact fun _ there => isDigit_of_mem_decimal there
  have some_ : decimal number.natAbs ≠ [] := Nat.toDigits_ne_nil
  have size : Nat.ofDigitChars 10 (decimal number.natAbs) 0 = number.natAbs := Nat.ofDigitChars_ten_toDigits
  by_cases negative : number < 0
  · have value : -(number.natAbs : Int) = number := by omega
    simp only [parseI64, i64Text, if_pos negative, List.head?_cons, List.tail_cons, true_or, if_true, size, value]
    exact if_pos ⟨some_, digits, low, high⟩
  · have value : (number.natAbs : Int) = number := by omega
    have unsigned (sign : Char) (other : ¬ sign.isDigit) : (decimal number.natAbs).head? ≠ some sign :=
      fun first => other (isDigit_of_mem_decimal (List.mem_of_mem_head? first))
    have minus := unsigned '-' (by decide)
    have plus := unsigned '+' (by decide)
    simp only [parseI64, i64Text, if_neg negative, minus, plus, or_self, if_false, size, value]
    exact if_pos ⟨some_, digits, low, high⟩

theorem i64Text_inj {first second : Int} (same : i64Text first = i64Text second)
    : first = second := by
  have unsigned {number : Nat} {rest : List Char} : '-' :: rest ≠ decimal number := by
    intro begins
    have digit := isDigit_of_mem_decimal (begins ▸ List.mem_cons_self : '-' ∈ decimal number)
    exact absurd digit (by decide)
  unfold i64Text at same
  split at same
  · split at same
    · have sizes := decimal_inj.mp (List.cons.inj same).2
      omega
    · exact absurd same unsigned
  · split at same
    · exact absurd same.symm unsigned
    · have sizes := decimal_inj.mp same
      omega

theorem spelling_injective
    : Function.Injective Seccomp.spelling := by
  intro one two alike
  cases one <;> cases two <;> first | rfl | exact absurd alike (by decide)

theorem boolText_injective
    : Function.Injective (toString : Bool → String) := by
  intro one two alike
  cases one <;> cases two <;> first | rfl | exact absurd alike (by decide)

theorem allow_label (name : String)
    : (Network.allow name).label.toList = 'a' :: 'l' :: 'l' :: 'o' :: 'w' :: ':' :: name.toList :=
  String.toList_append ..

theorem label_injective
    : Function.Injective Network.label := by
  intro one two alike
  have texts := congrArg String.toList alike
  cases one with
  | allow name =>
      cases two with
      | allow other =>
          rw [allow_label, allow_label] at texts
          simpa [String.toList_inj] using texts
      | default | none => rw [allow_label] at texts; cases texts
  | default =>
      cases two with
      | allow other => rw [allow_label] at texts; cases texts
      | default => rfl
      | none => exact absurd alike (by decide)
  | none =>
      cases two with
      | allow other => rw [allow_label] at texts; cases texts
      | default => exact absurd alike (by decide)
      | none => rfl

theorem parse_label {network : Network}
    (valid : ∀ name, network = .allow name → validAllowlistName name = .ok ())
    : Network.parse network.label = .ok network := by
  cases network with
  | default => rfl
  | none => rfl
  | allow name =>
      have other (text : String) (first : text.toList.head? ≠ some 'a') : (Network.allow name).label ≠ text := by
        rintro rfl
        exact first (by rw [allow_label]; rfl)
      have begun : dropStart "allow:".toList (Network.allow name).label.toList = some name.toList := by
        rw [allow_label]
        rfl
      rw [Network.parse, if_neg (other _ (by decide)), if_neg (other _ (by decide)), begun]
      simp only [String.ofList_toList, valid name rfl]
      rfl

theorem floorBool_text (key : String) (value : Bool)
    : floorBool key (toString value) = .ok value := by
  cases value <;> rfl

theorem floorSeccomp_spelling (posture : Seccomp)
    : floorSeccomp posture.spelling = .ok posture := by
  cases posture <;> rfl

-- Fields that are read back

theorem ext_written {first second : IsolationSpec} (same : ∀ key, first.written key = second.written key)
    : first = second := by
  have user : Function.Injective fun uid => String.ofList (i64Text uid) :=
    fun _ _ alike => i64Text_inj (String.ofList_injective alike)
  have boolean {one two : Option Bool} (alike : one.map toString = two.map toString) : one = two :=
    Option.map_injective boolText_injective alike
  cases first
  cases second
  congr 1
  · exact same "runtime_class"
  · exact Option.map_injective spelling_injective (same "seccomp")
  · exact boolean (same "read_only_root_fs")
  · exact boolean (same "no_new_privileges")
  · exact boolean (same "drop_all_capabilities")
  · exact boolean (same "run_as_non_root")
  · exact Option.map_injective user (same "run_as_user")
  · exact boolean (same "service_account_token")
  · exact Option.map_injective label_injective (same "network")

/-- Whether an envelope's user is a number of 64 bits, as the code's type has it. -/
def IsolationSpec.Fits (spec : IsolationSpec) : Prop :=
  ∀ uid, spec.runAsUser = some uid → -2 ^ 63 ≤ uid ∧ uid < 2 ^ 63

/-- A field that is written is read back, into an envelope of which the same is written as before elsewhere. -/
theorem readField_written {spec : IsolationSpec} (valid : spec.validate = .ok ()) (fits : spec.Fits)
    {key value : String} (written : spec.written key = some value) (out : IsolationSpec)
    : ∃ next, readField out key value = .ok next
      ∧ ∀ other, next.written other = if other = key then some value else out.written other := by
  obtain ⟨-, -, allowed⟩ := validate_eq_ok.mp valid
  unfold IsolationSpec.written at written
  split at written
  case h_10 => cases written
  case h_1 => exact ⟨{ out with runtimeClass := some value }, rfl, fun other => by
    fun_cases IsolationSpec.written out other <;> simp_all [IsolationSpec.written]⟩
  all_goals obtain ⟨held, is_, rfl⟩ := Option.map_eq_some_iff.mp written
  case h_2 =>
    have read : floorSeccomp held.spelling = .ok held := floorSeccomp_spelling held
    refine ⟨{ out with seccomp := some held }, by rw [readField, read]; rfl, fun other => ?_⟩
    fun_cases IsolationSpec.written out other <;> simp_all [IsolationSpec.written]
  case h_7 =>
    have read : floorUser (String.ofList (i64Text held)) = .ok held := by
      rw [floorUser, String.toList_ofList, parseI64_i64Text (fits held is_).1 (fits held is_).2]
    refine ⟨{ out with runAsUser := some held }, by rw [readField, read]; rfl, fun other => ?_⟩
    fun_cases IsolationSpec.written out other <;> simp_all [IsolationSpec.written]
  case h_9 =>
    have read : floorNetwork held.label = .ok held := by
      rw [floorNetwork, parse_label fun name named => allowed name (is_.trans (congrArg some named))]
      rfl
    refine ⟨{ out with network := some held }, by rw [readField, read]; rfl, fun other => ?_⟩
    fun_cases IsolationSpec.written out other <;> simp_all [IsolationSpec.written]
  all_goals
    refine ⟨_, by rw [readField, floorBool_text]; rfl, fun other => ?_⟩
    fun_cases IsolationSpec.written out other <;> simp_all [IsolationSpec.written]

theorem foldlM_readField {spec : IsolationSpec} (valid : spec.validate = .ok ()) (fits : spec.Fits)
    {fields : List (String × String)} (written : ∀ field ∈ fields, spec.written field.1 = some field.2)
    (out : IsolationSpec)
    : ∃ next, fields.foldlM (fun out field => readField out field.1 field.2) out = .ok next
      ∧ ∀ key, next.written key = if key ∈ fields.map Prod.fst then spec.written key else out.written key := by
  induction fields generalizing out with
  | nil => exact ⟨out, rfl, fun key => (if_neg List.not_mem_nil).symm⟩
  | cons field rest ih =>
      have first := written field List.mem_cons_self
      obtain ⟨middle, read, set⟩ := readField_written valid fits first out
      obtain ⟨next, later, held⟩ := ih (fun other there => written other (List.mem_cons_of_mem field there)) middle
      refine ⟨next, ?_, fun key => ?_⟩
      · rw [List.foldlM_cons, read]
        exact later
      · rw [held, set, List.map_cons, ← first]
        by_cases there : key ∈ rest.map Prod.fst
        · rw [if_pos there, if_pos (List.mem_cons_of_mem _ there)]
        · by_cases here : key = field.1
          · rw [if_neg there, if_pos here, if_pos (here ▸ List.mem_cons_self), here]
          · rw [if_neg there, if_neg here, if_neg fun member => (List.mem_cons.mp member).elim here there]

theorem readFields_canonical {spec : IsolationSpec} (valid : spec.validate = .ok ()) (fits : spec.Fits)
    : spec.canonicalFields.entries.foldlM (fun out field => readField out field.1 field.2) {} = .ok spec := by
  have written (field : String × String) (there : field ∈ spec.canonicalFields.entries)
      : spec.written field.1 = some field.2 :=
    (get?_canonicalFields spec field.1).symm.trans (OrderedMap.mem_entries.mp there)
  obtain ⟨next, read, held⟩ := foldlM_readField valid fits written {}
  have same : next = spec := by
    refine ext_written fun key => ?_
    rw [held]
    split
    next => rfl
    next absent =>
      have unset : spec.written key = none := by
        by_contra some_
        obtain ⟨value, is_⟩ := Option.ne_none_iff_exists'.mp some_
        have there := OrderedMap.mem_entries.mpr ((get?_canonicalFields spec key).trans is_)
        exact absent (List.mem_map_of_mem (f := Prod.fst) there)
      rw [unset]
      fun_cases IsolationSpec.written {} key <;> rfl
  rw [read, same]

-- Texts that are read back

/-- Whether a text has neither white space nor a comma in it. -/
def Unspaced (text : List Char) : Prop :=
  ∀ char ∈ text, isSpace char = false ∧ char ≠ ','

instance (text : List Char) : Decidable (Unspaced text) :=
  List.decidableBAll (fun char => isSpace char = false ∧ char ≠ ',') text

theorem Unspaced.trim {text : List Char} (unspaced : Unspaced text)
    : trim text = text :=
  strip_of_none_blank fun char there => (unspaced char there).1

theorem unspaced_char {char : Char} (graphic : 45 ≤ char.toNat ∧ char.toNat ≤ 126)
    : isSpace char = false ∧ char ≠ ',' := by
  constructor
  · simp only [isSpace, Bool.or_eq_false_iff, Bool.and_eq_false_iff, decide_eq_false_iff_not, beq_eq_false_iff_ne]
    omega
  · rintro rfl
    exact absurd graphic.1 (by decide)

theorem unspaced_label {most : Nat} {label : String} (is_ : isDnsLabel most label)
    : Unspaced label.toList := by
  intro char there
  simp only [isDnsLabel, Bool.and_eq_true, List.all_eq_true] at is_
  have dns := is_.1.1.2 char there
  simp only [Bool.or_eq_true, Bool.and_eq_true, decide_eq_true_eq, beq_iff_eq, Char.le_def,
    UInt32.le_iff_toNat_le] at dns
  obtain (letter | digit) | rfl := dns
  · have high : char.toNat ≤ 122 := letter.2
    have low : 97 ≤ char.toNat := letter.1
    exact unspaced_char (by omega)
  · have high : char.toNat ≤ 57 := digit.2
    have low : 48 ≤ char.toNat := digit.1
    exact unspaced_char (by omega)
  · exact unspaced_char (by decide)

theorem unspaced_decimal (number : Nat)
    : Unspaced (decimal number) := by
  intro char there
  have digit := isDigit_of_mem_decimal there
  simp only [Char.isDigit, Bool.and_eq_true, decide_eq_true_eq, UInt32.le_iff_toNat_le] at digit
  have high : char.toNat ≤ 57 := digit.2
  have low : 48 ≤ char.toNat := digit.1
  exact unspaced_char (by omega)

theorem unspaced_i64Text (number : Int)
    : Unspaced (i64Text number) := by
  unfold i64Text
  split
  · exact List.forall_mem_cons.mpr ⟨by decide, unspaced_decimal _⟩
  · exact unspaced_decimal _

theorem unspaced_allow {name : String} (valid : validAllowlistName name = .ok ())
    : Unspaced name.toList :=
  unspaced_label (require_eq_ok.mp valid)

theorem unspaced_runtimeClass {name : String} (valid : validRuntimeClass name = .ok ())
    : Unspaced name.toList := by
  simp only [validRuntimeClass, bind_eq_ok, require_eq_ok, List.all_eq_true] at valid
  intro char there
  by_cases dot : char = '.'
  · subst dot
    exact unspaced_char (by decide)
  · -- A character that is no dot is in one of the labels between the dots.
    have within : [char] <:+: ['.'].intercalate (name.toList.splitOn '.') := by
      rw [List.intercalate_splitOn]
      obtain ⟨front, back, whole⟩ := List.append_of_mem there
      exact ⟨front, back, by rw [whole, List.append_assoc, List.singleton_append]⟩
    obtain ⟨label, member, within⟩ := infix_of_infix_joined (List.cons_ne_nil char [])
      (fun same => dot (List.mem_singleton.mp same).symm) within
    have dns := unspaced_label (valid.2 label member)
    rw [String.toList_ofList] at dns
    exact dns char (within.subset List.mem_cons_self)

theorem unspaced_written {spec : IsolationSpec} (valid : spec.validate = .ok ()) {key value : String}
    (written : spec.written key = some value)
    : Unspaced value.toList := by
  obtain ⟨class_, -, allowed⟩ := validate_eq_ok.mp valid
  have boolean (value : Bool) : Unspaced (toString value).toList := by
    cases value <;> decide
  unfold IsolationSpec.written at written
  split at written
  case h_10 => cases written
  case h_1 => exact unspaced_runtimeClass (class_ value written)
  all_goals obtain ⟨held, is_, rfl⟩ := Option.map_eq_some_iff.mp written
  case h_2 => cases held <;> decide
  case h_7 =>
    rw [String.toList_ofList]
    exact unspaced_i64Text held
  case h_9 =>
    cases held with
    | default => decide
    | none => decide
    | allow name =>
        rw [allow_label]
        simp only [Unspaced, List.forall_mem_cons]
        exact ⟨by decide, by decide, by decide, by decide, by decide, by decide,
          unspaced_allow (allowed name is_)⟩
  all_goals exact boolean held

theorem fieldKeys_text {key : String} (is_ : key ∈ fieldKeys)
    : Unspaced key.toList ∧ '=' ∉ key.toList := by
  have each : ∀ key ∈ fieldKeys, Unspaced key.toList ∧ '=' ∉ key.toList := by decide
  exact each key is_

theorem readEntry_fieldText {key value : String} (is_ : key ∈ fieldKeys) (unspaced : Unspaced value.toList)
    (out : IsolationSpec)
    : readEntry out (fieldText (key, value)) = readField out key value := by
  obtain ⟨plain, unsigned⟩ := fieldKeys_text is_
  rw [readEntry, fieldText, splitOnce_char unsigned]
  simp only [plain.trim, unspaced.trim, String.ofList_toList]

theorem unspaced_fieldText {key value : String} (is_ : key ∈ fieldKeys) (unspaced : Unspaced value.toList)
    : Unspaced (fieldText (key, value)) := by
  intro char there
  obtain before | rfl | after := (List.mem_append.trans (or_congr_right List.mem_cons)).mp there
  · exact (fieldKeys_text is_).1 char before
  · decide
  · exact unspaced char after

theorem floorEntries_joined {entries : List (List Char)} (some_ : ∀ entry ∈ entries, entry ≠ [])
    (unspaced : ∀ entry ∈ entries, Unspaced entry)
    : floorEntries (['\n'].intercalate entries) = entries := by
  by_cases none_ : entries = []
  · subst none_
    decide
  · have plain (entry : List Char) (there : entry ∈ entries) (char : Char) (within : char ∈ entry)
        : endsEntry char = false := by
      obtain ⟨seen, other⟩ := unspaced entry there char within
      have line : char ≠ '\n' := by
        rintro rfl
        exact absurd seen (by decide)
      simp [endsEntry, other, line]
    rw [floorEntries, splitOnP_joined _ (by decide) plain none_,
      List.map_congr_left (fun entry there => (unspaced entry there).trim), List.map_id', List.filter_eq_self]
    intro entry there
    simpa using some_ entry there

theorem foldlM_readEntry {fields : List (String × String)}
    (plain : ∀ field ∈ fields, field.1 ∈ fieldKeys ∧ Unspaced field.2.toList) (out : IsolationSpec)
    : fields.foldlM (fun out field => readEntry out (fieldText field)) out
      = fields.foldlM (fun out field => readField out field.1 field.2) out := by
  induction fields generalizing out with
  | nil => rfl
  | cons field rest ih =>
      obtain ⟨is_, unspaced⟩ := plain field List.mem_cons_self
      rw [List.foldlM_cons, List.foldlM_cons, readEntry_fieldText is_ unspaced]
      exact bind_congr fun next => ih (fun other there => plain other (List.mem_cons_of_mem field there)) next

theorem fieldText_ne_nil (field : String × String)
    : fieldText field ≠ [] := by
  simp [fieldText]

theorem parseFloor_canonical {spec : IsolationSpec} (valid : spec.validate = .ok ()) (fits : spec.Fits)
    : parseFloor spec.canonical = .ok spec := by
  have written (field : String × String) (there : field ∈ spec.canonicalFields.entries)
      : spec.written field.1 = some field.2 :=
    (get?_canonicalFields spec field.1).symm.trans (OrderedMap.mem_entries.mp there)
  have fields (field : String × String) (there : field ∈ spec.canonicalFields.entries)
      : field.1 ∈ fieldKeys ∧ Unspaced field.2.toList :=
    ⟨mem_fieldKeys (written field there), unspaced_written valid (written field there)⟩
  have some_ (entry : List Char) (there : entry ∈ spec.canonicalFields.entries.map fieldText) : entry ≠ [] := by
    obtain ⟨field, _, rfl⟩ := List.mem_map.mp there
    exact fieldText_ne_nil field
  have unspaced (entry : List Char) (there : entry ∈ spec.canonicalFields.entries.map fieldText)
      : Unspaced entry := by
    obtain ⟨field, member, rfl⟩ := List.mem_map.mp there
    exact unspaced_fieldText (fields field member).1 (fields field member).2
  have text : trim spec.canonical.toList = ['\n'].intercalate (spec.canonicalFields.entries.map fieldText) := by
    rw [IsolationSpec.canonical, String.toList_ofList]
    exact strip_joined some_ fun entry there => (unspaced entry there).trim
  have unnamed : (trim spec.canonical.toList).map Char.toLower ≠ "hardened".toList := by
    rw [text]
    cases listed : spec.canonicalFields.entries with
    | nil => decide
    | cons field rest =>
        intro preset
        have sign : '=' ∈ ['\n'].intercalate ((field :: rest).map fieldText) := by
          cases rest <;> simp [fieldText, List.intercalate_cons_cons]
        have lower := List.mem_map_of_mem (f := Char.toLower) sign
        rw [preset] at lower
        exact absurd lower (by decide)
  have read : (spec.canonicalFields.entries.map fieldText).foldlM readEntry {} = .ok spec := by
    rw [List.foldlM_map, foldlM_readEntry fields]
    exact readFields_canonical valid fits
  rw [parseFloor, if_neg unnamed, text, floorEntries_joined some_ unspaced, read]
  exact congrArg (· >>= fun _ => Except.ok spec) valid

-- Texts that are written once

/-- Whether the names in an envelope have no line end in them. -/
def IsolationSpec.Unbroken (spec : IsolationSpec) : Prop :=
  (∀ name, spec.runtimeClass = some name → '\n' ∉ name.toList)
    ∧ ∀ name, spec.network = some (.allow name) → '\n' ∉ name.toList

theorem Unspaced.unbroken {text : List Char} (unspaced : Unspaced text)
    : '\n' ∉ text :=
  fun there => absurd (unspaced '\n' there).1 (by decide)

theorem unbroken_of_valid {spec : IsolationSpec} (valid : spec.validate = .ok ())
    : spec.Unbroken := by
  obtain ⟨class_, -, allowed⟩ := validate_eq_ok.mp valid
  exact ⟨fun name is_ => (unspaced_runtimeClass (class_ name is_)).unbroken,
    fun name is_ => (unspaced_allow (allowed name is_)).unbroken⟩

theorem unbroken_written {spec : IsolationSpec} (unbroken : spec.Unbroken) {key value : String}
    (written : spec.written key = some value)
    : '\n' ∉ value.toList := by
  have boolean (value : Bool) : '\n' ∉ (toString value).toList := by cases value <;> decide
  unfold IsolationSpec.written at written
  split at written
  case h_10 => cases written
  case h_1 => exact unbroken.1 value written
  all_goals obtain ⟨held, is_, rfl⟩ := Option.map_eq_some_iff.mp written
  case h_2 => cases held <;> decide
  case h_7 =>
    rw [String.toList_ofList]
    exact (unspaced_i64Text held).unbroken
  case h_9 =>
    cases held with
    | default => decide
    | none => decide
    | allow name =>
        rw [allow_label]
        simpa using unbroken.2 name is_
  all_goals exact boolean held

theorem fieldTexts_of_canonical {first second : IsolationSpec} (unbroken : first.Unbroken)
    (unbroken' : second.Unbroken) (same : first.canonical = second.canonical)
    : first.canonicalFields.entries.map fieldText = second.canonicalFields.entries.map fieldText := by
  have lines {spec : IsolationSpec} (unbroken : spec.Unbroken) (entry : List Char)
      (there : entry ∈ spec.canonicalFields.entries.map fieldText) : '\n' ∉ entry := by
    obtain ⟨⟨key, value⟩, member, rfl⟩ := List.mem_map.mp there
    have written := (get?_canonicalFields spec key).symm.trans (OrderedMap.mem_entries.mp member)
    rw [fieldText, List.mem_append, List.mem_cons, not_or, not_or]
    exact ⟨(fieldKeys_text (mem_fieldKeys written)).1.unbroken, by decide, unbroken_written unbroken written⟩
  have texts := String.ofList_injective same
  have empty {entries : List (String × String)}
      (none_ : ['\n'].intercalate (entries.map fieldText) = []) : entries = [] := by
    cases entries with
    | nil => rfl
    | cons field rest => cases rest <;> simp [fieldText, List.intercalate_cons_cons] at none_
  by_cases none_ : first.canonicalFields.entries = []
  · rw [none_, empty (texts.symm.trans (by rw [none_]; rfl))]
  · have some_ : second.canonicalFields.entries ≠ [] := fun none' =>
      none_ (empty (texts.trans (by rw [none']; rfl)))
    have split := congrArg (List.splitOn '\n') texts
    rwa [List.splitOn_intercalate '\n' (lines unbroken) (by simpa using none_),
      List.splitOn_intercalate '\n' (lines unbroken') (by simpa using some_)] at split

/-- Of two envelopes whose names have no line end in them the same is written only where they are the same. -/
theorem canonical_inj {first second : IsolationSpec} (unbroken : first.Unbroken) (unbroken' : second.Unbroken)
    (same : first.canonical = second.canonical)
    : first = second := by
  have keyed (spec : IsolationSpec) (field : String × String) (there : field ∈ spec.canonicalFields.entries)
      : splitOnce ['='] (fieldText field) = some (field.1.toList, field.2.toList) := by
    have written := (get?_canonicalFields spec field.1).symm.trans (OrderedMap.mem_entries.mp there)
    exact splitOnce_char (fieldKeys_text (mem_fieldKeys written)).2 _
  have within {spec other : IsolationSpec}
      (texts : spec.canonicalFields.entries.map fieldText = other.canonicalFields.entries.map fieldText)
      {field : String × String} (there : field ∈ spec.canonicalFields.entries)
      : field ∈ other.canonicalFields.entries := by
    obtain ⟨field', there', alike⟩ := List.mem_map.mp (texts ▸ List.mem_map_of_mem there)
    have parts := (keyed other field' there').symm.trans (congrArg (splitOnce ['=']) alike)
    rw [keyed spec field there, Option.some.injEq, Prod.mk.injEq, String.toList_inj, String.toList_inj] at parts
    rwa [← Prod.ext parts.1 parts.2]
  have texts := fieldTexts_of_canonical unbroken unbroken' same
  refine ext_written fun key => Option.ext fun value => ?_
  rw [← get?_canonicalFields, ← get?_canonicalFields, ← OrderedMap.mem_entries, ← OrderedMap.mem_entries]
  exact ⟨within texts, within texts.symm⟩

/-- What is written of a valid envelope is read back to it. Of two envelopes the same is written only where they
are the same, if each is valid, or at least has no line end in its names.
-/
theorem floor_survives_writing
    : (∀ spec : IsolationSpec, spec.Fits → spec.validate = .ok () → parseFloor spec.canonical = .ok spec)
      ∧ (∀ first second : IsolationSpec, first.validate = .ok () → second.validate = .ok () →
        (first.canonical = second.canonical ↔ first = second))
      ∧ ∀ first second : IsolationSpec, first.Unbroken → second.Unbroken →
        (first.canonical = second.canonical ↔ first = second) := by
  refine ⟨fun spec fits valid => parseFloor_canonical valid fits, fun first second valid valid' => ?_,
    fun first second unbroken unbroken' => ⟨canonical_inj unbroken unbroken', congrArg _⟩⟩
  exact ⟨canonical_inj (unbroken_of_valid valid) (unbroken_of_valid valid'), congrArg _⟩

/-- An envelope with every field set, read back and told from one with less of the network. -/
theorem floor_survives_writing_whole
    : let spec : IsolationSpec :=
        { IsolationSpec.hardened with
          runtimeClass := some "gvisor.v2"
          runAsUser := some 1000
          network := some (.allow "pypi") }
      parseFloor spec.canonical = .ok spec
        ∧ spec.canonical ≠ { spec with network := some .default }.canonical := by
  intro spec
  have fits : spec.Fits := by
    rintro uid is_
    obtain rfl := Option.some.inj is_
    decide
  have valid : spec.validate = .ok () := by decide
  exact ⟨floor_survives_writing.1 spec fits valid,
    fun same => absurd ((floor_survives_writing.2.1 spec _ valid (by decide)).mp same) (by decide)⟩

/-- A runtime class with a line end in it is no valid one, and is written as another field would be. -/
example : ({ runtimeClass := some "gvisor\nseccomp=unconfined" } : IsolationSpec).canonical
    = ({ runtimeClass := some "gvisor", seccomp := some .unconfined } : IsolationSpec).canonical := by
  decide

end Dagron.Spec
