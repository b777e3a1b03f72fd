import Mathlib.Data.List.Basic
import Mathlib.Tactic.IntervalCases

/-! Texts that say what they were written from: whatever follows, a value is read back from its text in one
way. The texts that a debug rendering makes of strings, of options and of lists are such texts.
-/

namespace Dagron.Library

/-- Two values whose texts begin alike, whatever follows each, are one value, and so is what follows. -/
def Legible {Value : Type} (write : Value → List Char) : Prop :=
  ∀ ⦃first second : Value⦄ ⦃rest rest' : List Char⦄,
    write first ++ rest = write second ++ rest' → first = second ∧ rest = rest'

variable {Value : Type} {write : Value → List Char}

theorem Legible.injective (legible : Legible write)
    : Function.Injective write :=
  fun _ _ same => (legible (congrArg (· ++ []) same)).1

/-- Texts that end where a character stands that neither has are one text, if they begin alike. -/
theorem append_cons_inj {stop : Char} {first second rest rest' : List Char} (free : stop ∉ first)
    (free' : stop ∉ second) (same : first ++ stop :: rest = second ++ stop :: rest')
    : first = second ∧ rest = rest' := by
  induction first generalizing second with
  | nil =>
      cases second with
      | nil => exact ⟨rfl, (List.cons.inj same).2⟩
      | cons head tail => exact absurd ((List.cons.inj same).1 ▸ List.mem_cons_self) free'
  | cons char first ih =>
      cases second with
      | nil => exact absurd ((List.cons.inj same).1 ▸ List.mem_cons_self) free
      | cons head tail =>
          rw [List.cons_append, List.cons_append] at same
          obtain ⟨rfl, tails⟩ := List.cons.inj same
          obtain ⟨rfl, rest_⟩ := ih (fun there => free (List.mem_cons_of_mem _ there))
            (fun there => free' (List.mem_cons_of_mem _ there)) tails
          exact ⟨rfl, rest_⟩

-- Numbers in hexadecimal digits

theorem digitChar_inj {first second : Nat} (small : first < 16) (small' : second < 16)
    (same : first.digitChar = second.digitChar)
    : first = second := by
  have all : ∀ one < 16, ∀ two < 16, Nat.digitChar one = Nat.digitChar two → one = two := by decide
  exact all first small second small' same

theorem toDigits_sixteen (number : Nat)
    : Nat.toDigits 16 number
      = if number < 16 then [number.digitChar]
        else Nat.toDigits 16 (number / 16) ++ [(number % 16).digitChar] :=
  Nat.toDigits_eq_if (by decide)

theorem singleton_ne_toDigits_append (number : Nat) (digit digit' : Char)
    : [digit] ≠ Nat.toDigits 16 number ++ [digit'] := by
  intro same
  have last : [] ++ [digit] = Nat.toDigits 16 number ++ [digit'] := same
  exact Nat.toDigits_ne_nil (List.append_inj_left' last rfl).symm

theorem toDigits_sixteen_inj {first second : Nat} (same : Nat.toDigits 16 first = Nat.toDigits 16 second)
    : first = second := by
  induction first using Nat.strongRecOn generalizing second with
  | ind first ih =>
      rw [toDigits_sixteen first, toDigits_sixteen second] at same
      split at same
      next small =>
        split at same
        next small' => exact digitChar_inj small small' (List.singleton_inj.mp same)
        next => exact absurd same (singleton_ne_toDigits_append _ _ _)
      next large =>
        split at same
        next => exact absurd same.symm (singleton_ne_toDigits_append _ _ _)
        next =>
          have quotients := ih (first / 16) (by omega) (List.append_inj_left' same rfl)
          have remainders := digitChar_inj (Nat.mod_lt _ (by decide)) (Nat.mod_lt _ (by decide))
            (List.singleton_inj.mp (List.append_inj_right' same rfl))
          omega

theorem digitChar_ne_brace {number : Nat} (small : number < 16)
    : number.digitChar ≠ '}' := by
  have all : ∀ one < 16, Nat.digitChar one ≠ '}' := by decide
  exact all number small

theorem brace_not_mem_toDigits (number : Nat)
    : '}' ∉ Nat.toDigits 16 number := by
  induction number using Nat.strongRecOn with
  | ind number ih =>
      rw [toDigits_sixteen]
      split
      next small => exact fun there => digitChar_ne_brace small (List.mem_singleton.mp there).symm
      next large =>
        intro there
        obtain there | there := List.mem_append.mp there
        · exact ih (number / 16) (by omega) there
        · exact digitChar_ne_brace (Nat.mod_lt _ (by decide)) (List.mem_singleton.mp there).symm

-- Strings, options and lists as a debug rendering writes them

/-- The characters that have a letter, which stands for them after a backslash. -/
def debugLetters : List (Char × Char) :=
  [('\x00', '0'), ('\t', 't'), ('\r', 'r'), ('\n', 'n'), ('"', '"'), ('\\', '\\')]

def debugLetter (char : Char) : Option Char :=
  (debugLetters.find? fun entry => entry.1 = char).map Prod.snd

/-- A character inside a string; what (hidden) picks out, as the tables of Unicode do, stands by its number. -/
def debugChar (hidden : Char → Bool) (char : Char) : List Char :=
  match debugLetter char with
  | some letter => ['\\', letter]
  | none =>
      if hidden char then '\\' :: 'u' :: '{' :: (Nat.toDigits 16 char.toNat ++ ['}'])
      else [char]

def debugString (hidden : Char → Bool) (text : String) : List Char :=
  '"' :: (text.toList.flatMap (debugChar hidden) ++ ['"'])

def debugOption (write : Value → List Char) : Option Value → List Char
  | none => "None".toList
  | some value => "Some(".toList ++ (write value ++ [')'])

def debugItems (write : Value → List Char) : List Value → List Char
  | [] => [']']
  | item :: items => ',' :: ' ' :: (write item ++ debugItems write items)

def debugList (write : Value → List Char) : List Value → List Char
  | [] => ['[', ']']
  | item :: items => '[' :: (write item ++ debugItems write items)

/-- The text of one field of a record after what leads to it, and what follows. -/
def debugField (label : String) (text tail : List Char) : List Char :=
  label.toList ++ (text ++ tail)

-- Reading them back

theorem mem_debugLetters {char letter : Char} (has : debugLetter char = some letter)
    : (char, letter) ∈ debugLetters := by
  obtain ⟨entry, found, rfl⟩ := Option.map_eq_some_iff.mp has
  have same : entry.1 = char := by simpa using List.find?_some found
  exact same ▸ List.mem_of_find?_eq_some found

theorem debugLetter_inj {first second letter : Char} (has : debugLetter first = some letter)
    (has' : debugLetter second = some letter)
    : first = second := by
  have all : ∀ one ∈ debugLetters, ∀ two ∈ debugLetters, one.2 = two.2 → one.1 = two.1 := by decide
  exact all _ (mem_debugLetters has) _ (mem_debugLetters has') rfl

theorem debugLetter_ne {char letter : Char} (has : debugLetter char = some letter)
    : letter ≠ 'u' := by
  have all : ∀ entry ∈ debugLetters, entry.2 ≠ 'u' := by decide
  exact all _ (mem_debugLetters has)

theorem ne_of_debugLetter_none {char : Char} (none_ : debugLetter char = none)
    : char ≠ '\\' ∧ char ≠ '"' := by
  constructor
  all_goals
    rintro rfl
    exact absurd none_ (by decide)

theorem debugChar_ne_quote (hidden : Char → Bool) (char : Char) (rest rest' : List Char)
    : debugChar hidden char ++ rest ≠ '"' :: rest' := by
  unfold debugChar
  split
  · exact fun same => absurd (List.cons.inj same).1 (by decide)
  next none_ =>
    split
    · exact fun same => absurd (List.cons.inj same).1 (by decide)
    · exact fun same => (ne_of_debugLetter_none none_).2 (List.cons.inj same).1

theorem legible_debugChar (hidden : Char → Bool)
    : Legible (debugChar hidden) := by
  intro first second rest rest' same
  cases has : debugLetter first with
  | some letter =>
      cases has' : debugLetter second with
      | some letter' =>
          simp only [debugChar, has, has'] at same
          obtain ⟨-, tails⟩ := List.cons.inj same
          obtain ⟨rfl, rests⟩ := List.cons.inj tails
          exact ⟨debugLetter_inj has has', rests⟩
      | none =>
          simp only [debugChar, has, has'] at same
          split at same
          · exact absurd (List.cons.inj (List.cons.inj same).2).1 (debugLetter_ne has)
          · exact absurd (List.cons.inj same).1.symm (ne_of_debugLetter_none has').1
  | none =>
      cases has' : debugLetter second with
      | some letter' =>
          simp only [debugChar, has, has'] at same
          split at same
          · exact absurd (List.cons.inj (List.cons.inj same).2).1.symm (debugLetter_ne has')
          · exact absurd (List.cons.inj same).1 (ne_of_debugLetter_none has).1
      | none =>
          simp only [debugChar, has, has'] at same
          split at same
          · split at same
            · have numbers := (List.cons.inj (List.cons.inj (List.cons.inj same).2).2).2
              change (_ ++ ['}']) ++ rest = (_ ++ ['}']) ++ rest' at numbers
              rw [List.append_assoc, List.append_assoc] at numbers
              obtain ⟨digits, rests⟩ :=
                append_cons_inj (brace_not_mem_toDigits _) (brace_not_mem_toDigits _) numbers
              exact ⟨Char.toNat_inj.mp (toDigits_sixteen_inj digits), rests⟩
            · exact absurd (List.cons.inj same).1.symm (ne_of_debugLetter_none has').1
          · split at same
            · exact absurd (List.cons.inj same).1 (ne_of_debugLetter_none has).1
            · exact List.cons.inj same

theorem debugChars_inj {hidden : Char → Bool} {first second rest rest' : List Char}
    (same : first.flatMap (debugChar hidden) ++ '"' :: rest
      = second.flatMap (debugChar hidden) ++ '"' :: rest')
    : first = second ∧ rest = rest' := by
  induction first generalizing second with
  | nil =>
      cases second with
      | nil => exact ⟨rfl, (List.cons.inj same).2⟩
      | cons char second =>
          rw [List.flatMap_cons, List.append_assoc] at same
          exact absurd same.symm (debugChar_ne_quote hidden char _ _)
  | cons char first ih =>
      cases second with
      | nil =>
          rw [List.flatMap_cons, List.append_assoc] at same
          exact absurd same (debugChar_ne_quote hidden char _ _)
      | cons char' second =>
          rw [List.flatMap_cons, List.append_assoc, List.flatMap_cons, List.append_assoc] at same
          obtain ⟨rfl, tails⟩ := legible_debugChar hidden same
          obtain ⟨rfl, rests⟩ := ih tails
          exact ⟨rfl, rests⟩

theorem legible_debugString (hidden : Char → Bool)
    : Legible (debugString hidden) := by
  intro first second rest rest' same
  simp only [debugString, List.cons_append, List.append_assoc] at same
  have inner := (List.cons.inj same).2
  obtain ⟨chars, rests⟩ := debugChars_inj inner
  exact ⟨String.toList_inj.mp chars, rests⟩

theorem legible_debugOption (legible : Legible write)
    : Legible (debugOption write) := by
  intro first second rest rest' same
  cases first with
  | none =>
      cases second with
      | none => exact ⟨rfl, List.append_cancel_left same⟩
      | some value => exact absurd (List.cons.inj same).1 (by decide)
  | some value =>
      cases second with
      | none => exact absurd (List.cons.inj same).1 (by decide)
      | some value' =>
          simp only [debugOption, List.append_assoc] at same
          obtain ⟨rfl, rests⟩ := legible (List.append_cancel_left same)
          exact ⟨rfl, (List.cons.inj rests).2⟩

theorem legible_debugItems (legible : Legible write)
    : Legible (debugItems write) := by
  intro first
  induction first with
  | nil =>
      intro second rest rest' same
      cases second with
      | nil => exact ⟨rfl, (List.cons.inj same).2⟩
      | cons item items => exact absurd (List.cons.inj same).1 (by decide)
  | cons item items ih =>
      intro second rest rest' same
      cases second with
      | nil => exact absurd (List.cons.inj same).1 (by decide)
      | cons item' items' =>
          simp only [debugItems, List.cons_append, List.append_assoc] at same
          have tails := (List.cons.inj (List.cons.inj same).2).2
          obtain ⟨rfl, tails'⟩ := legible tails
          obtain ⟨rfl, rests⟩ := ih tails'
          exact ⟨rfl, rests⟩

theorem legible_debugList (legible : Legible write)
    (opens : ∀ value rest rest', write value ++ rest ≠ ']' :: rest')
    : Legible (debugList write) := by
  intro first second rest rest' same
  cases first with
  | nil =>
      cases second with
      | nil => exact ⟨rfl, List.append_cancel_left same⟩
      | cons item items =>
          simp only [debugList, List.cons_append, List.append_assoc] at same
          have tails := (List.cons.inj same).2
          exact absurd tails.symm (opens item _ _)
  | cons item items =>
      cases second with
      | nil =>
          simp only [debugList, List.cons_append, List.append_assoc] at same
          have tails := (List.cons.inj same).2
          exact absurd tails (opens item _ _)
      | cons item' items' =>
          simp only [debugList, List.cons_append, List.append_assoc] at same
          have tails := (List.cons.inj same).2
          obtain ⟨rfl, tails'⟩ := legible tails
          obtain ⟨rfl, rests⟩ := legible_debugItems legible tails'
          exact ⟨rfl, rests⟩

theorem legible_debugStrings (hidden : Char → Bool)
    : Legible (debugList (debugString hidden)) :=
  legible_debugList (legible_debugString hidden) fun _ _ _ same =>
    absurd (List.cons.inj same).1 (by decide)

theorem debugField_append (label : String) (text tail rest : List Char)
    : debugField label text tail ++ rest = debugField label text (tail ++ rest) := by
  rw [debugField, debugField, List.append_assoc, List.append_assoc]

theorem Legible.field (legible : Legible write) {label : String} {first second : Value}
    {rest rest' : List Char}
    (same : debugField label (write first) rest = debugField label (write second) rest')
    : first = second ∧ rest = rest' :=
  legible (List.append_cancel_left same)

end Dagron.Library
