import Mathlib.Data.List.Induction
import Mathlib.Order.Lattice
import Dagron.CiExpr.Outsiders
import Dagron.CiExec.Job

/-! What the jobs after a job read of it: the result of all its tasks, of which none is a success but by the
engine's word, and the outputs that were said.
-/

namespace Dagron.CiExec

open Dagron.Spec (trim dropStart)
open Dagron.Library Dagron.CiExpr

-- What was said

/-- The last line of a task: what its job said, or any other. -/
inductive Word where
  | said (result : JobResult) (outputs : List (Text × Text))
  | line (text : Text)

structure Task where
  job
    : Text
  status
    : Text
  word
    : Word

variable (ext : CiExpr.Externals) (float : ext.Num → Text)

def Task.need (task : Task) : Need where
  job := task.job
  status := task.status
  said := match task.word with
    | .said result outputs => (said float result outputs).1
    | .line text => text

/-- The outputs that a task hands on: those that its job said, where they fitted. -/
def Task.outputs (task : Task) : List (Text × Text) :=
  match task.word with
  | .said result outputs => if byteLen (saidLine float result outputs) ≤ saidMax then outputs else []
  | .line _ => saidOutputs ext (task.need ext float)

def lastOf (name : Text) (outputs : List (Text × Text)) : Option Text :=
  outputs.reverse.lookup name

/-- What is relied on of the JSON reader: what a job says is read as it, and what begins with a colon is no
JSON.
-/
structure ReadsSaid : Prop where
  written
    : ∀ result (outputs : List (Text × Text)), (outputs.map Prod.fst).Pairwise (· < ·) →
      let json := saidJson result (outputs.map fun (name, text) => (name, .string text))
      ext.fromStr (compact float json) = .ok json
  colon
    : ∀ rest, (ext.fromStr (':' :: rest)).toOption = none

variable {ext} {float}

-- The line

theorem not_mem_compactFields (outputs : List (Text × Text))
    : '\n' ∉ compactFields float (outputs.map fun (name, text) => (name, .string text)) := by
  induction outputs with
  | nil => exact List.not_mem_nil
  | cons output rest ih =>
      obtain ⟨name, text⟩ := output
      have names := not_mem_quoteJson name
      have texts := not_mem_quoteJson text
      cases rest with
      | nil => simp [compactFields, compact, names, texts]
      | cons next rest =>
          simp only [List.map_cons] at ih ⊢
          simp [compactFields, compact, names, texts, ih]

/-- A string that is put among strings in the order of their names is found, and leaves the others, by
induction on these.
-/
theorem insertField_strings (name text : Text) {fields : List (Text × Text)}
    (sorted : (fields.map Prod.fst).Pairwise (· < ·))
    : ∃ after : List (Text × Text),
      insertField name (.string text) (fields.map fun (name, text) => (name, Json.string text))
          = after.map (fun (name, text) => (name, (.string text : Json ext.Num)))
        ∧ (after.map Prod.fst).Pairwise (· < ·)
        ∧ (∀ other ∈ after.map Prod.fst, other = name ∨ other ∈ fields.map Prod.fst)
        ∧ ∀ other, after.lookup other = if other = name then some text else fields.lookup other := by
  have split (other : Text) (text value : Text) (rest : List (Text × Text)) (here : Text)
      : ((here, value) :: rest).lookup other = if other = here then some value else rest.lookup other := by
    rw [List.lookup_cons]
    by_cases same : other = here
    · simp [same]
    · simp [same, beq_false_of_ne same]
  induction fields with
  | nil =>
      refine ⟨[(name, text)], rfl, List.pairwise_singleton .., by simp, fun other => ?_⟩
      rw [split other text]
  | cons first rest ih =>
      obtain ⟨here, value⟩ := first
      obtain ⟨before, rest_⟩ := List.pairwise_cons.mp sorted
      by_cases same : name = here
      · subst same
        refine ⟨(name, text) :: rest, by simp [insertField], List.pairwise_cons.mpr ⟨before, rest_⟩,
          fun other listed => Or.inr listed, fun other => ?_⟩
        rw [split other text, split other text]
        split_ifs <;> rfl
      by_cases earlier : name < here
      · refine ⟨(name, text) :: (here, value) :: rest, by simp [insertField, same, earlier], ?_,
          fun other listed => (List.mem_cons.mp listed).imp id id, fun other => split other text _ _ _⟩
        refine List.pairwise_cons.mpr ⟨fun other listed => ?_, List.pairwise_cons.mpr ⟨before, rest_⟩⟩
        obtain rfl | listed := List.mem_cons.mp listed
        · exact earlier
        · exact List.lt_trans earlier (before other listed)
      · obtain ⟨after, is, ordered, keys, finds⟩ := ih rest_
        have later : here < name := by
          by_contra no
          exact same (List.le_antisymm (List.not_lt.mp no) (List.not_lt.mp earlier))
        refine ⟨(here, value) :: after, ?_, List.pairwise_cons.mpr ⟨fun other listed => ?_, ordered⟩,
          fun other listed => ?_, fun other => ?_⟩
        · simpa [insertField, same, earlier] using is
        · obtain rfl | listed := keys other listed
          · exact later
          · exact before other listed
        · obtain rfl | listed := List.mem_cons.mp listed
          · exact Or.inr List.mem_cons_self
          · exact (keys other listed).imp id (List.mem_cons_of_mem _)
        · rw [split other text, split other text, finds]
          by_cases is : other = here
          · subst is
            simp [Ne.symm same]
          · simp [is]

theorem lastOf_concat (name : Text) (outputs : List (Text × Text)) (output : Text × Text)
    : lastOf name (outputs ++ [output])
      = if name = output.1 then some output.2 else lastOf name outputs := by
  rw [lastOf, List.reverse_append, List.reverse_singleton, List.singleton_append, List.lookup_cons]
  by_cases same : name = output.1
  · simp [same]
  · simp [same, beq_false_of_ne same, lastOf]

/-- The fields of outputs are strings, of which each name is there once, in order, with its last value; by
induction from the last output.
-/
theorem outputFields_strings (outputs : List (Text × Text))
    : ∃ fields : List (Text × Text),
      outputFields ext.Num outputs = fields.map (fun (name, text) => (name, .string text))
        ∧ (fields.map Prod.fst).Pairwise (· < ·) ∧ ∀ name, fields.lookup name = lastOf name outputs := by
  induction outputs using List.reverseRecOn with
  | nil => exact ⟨[], rfl, List.Pairwise.nil, fun _ => rfl⟩
  | append_singleton outputs output ih =>
      obtain ⟨fields, same, sorted, finds⟩ := ih
      obtain ⟨after, is, ordered, -, finds'⟩ := @insertField_strings ext output.1 output.2 fields sorted
      refine ⟨after, ?_, ordered, fun name => ?_⟩
      · rw [outputFields, List.foldl_append, ← outputFields, same]
        exact is
      · rw [finds', lastOf_concat, finds]

theorem not_mem_saidLine (result : JobResult) (outputs : List (Text × Text))
    : '\n' ∉ saidLine float result outputs := by
  obtain ⟨fields, same, -⟩ := @outputFields_strings ext outputs
  have inside := @not_mem_compactFields ext float fields
  have marker : '\n' ∉ saidMarker := by decide
  rw [saidLine, same]
  simp [saidJson, compact, compactFields, inside, not_mem_quoteJson, marker]

theorem not_mem_said (result : JobResult) (outputs : List (Text × Text))
    : '\n' ∉ (said float result outputs).1 := by
  unfold said
  dsimp only
  split_ifs
  · exact not_mem_saidLine result outputs
  · exact not_mem_saidLine result []

theorem said_fits (result : JobResult) (outputs : List (Text × Text))
    : byteLen (said float result outputs).1 ≤ saidMax := by
  unfold said
  dsimp only
  split_ifs with fits
  · exact fits
  · have same : saidLine float result [] = @saidLine Empty nofun result [] := by cases result <;> rfl
    rw [same]
    cases result <;> decide

-- A task's word

theorem dropStart_marker (rest : Text)
    : dropStart saidMarker (saidMarker ++ rest) = some rest := by
  rw [dropStart, if_pos (by simp), List.drop_left]

/-- The line that was said for a result and outputs is the whole one of these, or of no outputs. -/
theorem said_cases (result : JobResult) (outputs : List (Text × Text))
    : (said float result outputs).1
      = saidLine float result
          (if byteLen (saidLine float result outputs) ≤ saidMax then outputs else []) := by
  unfold said
  dsimp only
  split_ifs <;> rfl

variable (reader : ReadsSaid ext float)

include reader

theorem saidOf_need {task : Task} {result : JobResult} {outputs : List (Text × Text)}
    (word : task.word = .said result outputs)
    : saidOf ext (task.need ext float)
      = some (saidJson result.text (outputFields ext.Num (task.outputs ext float))) := by
  obtain ⟨fields, same, sorted, -⟩ := @outputFields_strings ext (task.outputs ext float)
  have line : (task.need ext float).said
      = saidMarker ++ compact float (saidJson result.text
          (outputFields ext.Num (task.outputs ext float))) := by
    simp only [Task.need, Task.outputs, word]
    exact said_cases result outputs
  rw [saidOf, line, dropStart_marker, same, Option.bind_some, reader.written result.text fields sorted]
  rfl

theorem noneMade_need {task : Task} {result : JobResult} {outputs : List (Text × Text)}
    (word : task.word = .said result outputs)
    : noneMade ext (task.need ext float) = false := by
  have line : ∃ rest, (task.need ext float).said = ':' :: rest := by
    simp only [Task.need, word]
    rw [said_cases]
    exact ⟨_, rfl⟩
  obtain ⟨rest, line⟩ := line
  have begins : trim (':' :: rest) <+: ':' :: rest := by
    have start : Spec.trimStart (':' :: rest) = ':' :: rest := List.dropWhile_cons_of_neg (by decide)
    rw [trim, start, Spec.trimEnd]
    have suffix := List.dropWhile_suffix (l := (':' :: rest).reverse) Spec.isSpace
    simpa using List.reverse_prefix.mpr suffix
  have list : trim (':' :: rest) ≠ "[]".toList := by
    intro same
    rw [same] at begins
    exact absurd (List.cons_prefix_cons.mp begins).1 (by decide)
  simp only [noneMade, line, reader.colon rest, Option.bind_none, Bool.or_eq_false_iff]
  exact ⟨by simpa using list, rfl⟩

omit reader

theorem field_result (result : Text) (outputs : List (Text × Json ext.Num))
    : field (saidJson result outputs) "result".toList = some (.string result) := by
  rfl

theorem field_outputs (result : Text) (outputs : List (Text × Json ext.Num))
    : field (saidJson result outputs) "outputs".toList = some (.object outputs) := by
  rfl

theorem lookup_cons_if {Item : Type} (name here : Text) (value : Item) (rest : List (Text × Item))
    : ((here, value) :: rest).lookup name = if name = here then some value else rest.lookup name := by
  rw [List.lookup_cons]
  by_cases same : name = here
  · simp [same]
  · simp [same, beq_false_of_ne same]

theorem lastOf_of_nodup {outputs : List (Text × Text)} (once : (outputs.map Prod.fst).Nodup) (name : Text)
    : lastOf name outputs = outputs.lookup name := by
  induction outputs with
  | nil => rfl
  | cons output rest ih =>
      obtain ⟨here, value⟩ := output
      obtain ⟨absent, once⟩ := List.nodup_cons.mp once
      rw [lastOf, List.reverse_cons, List.lookup_append, ← lastOf, ih once, lookup_cons_if, lookup_cons_if]
      split_ifs with same
      · subst same
        have none_ : rest.lookup name = none := by
          rw [List.lookup_eq_none_iff]
          intro other listed
          have apart : name ≠ other.1 := fun same => absent (List.mem_map.mpr ⟨other, listed, same.symm⟩)
          simpa using apart
        rw [none_]
        rfl
      · simp

include reader in
theorem lastOf_saidOutputs (task : Task) (name : Text)
    : lastOf name (saidOutputs ext (task.need ext float)) = lastOf name (task.outputs ext float) := by
  cases word : task.word with
  | line text => rw [Task.outputs, word]
  | said result outputs =>
      obtain ⟨fields, same, sorted, finds⟩ := @outputFields_strings ext (task.outputs ext float)
      have all : saidOutputs ext (task.need ext float) = fields := by
        rw [saidOutputs, saidOf_need reader word, Option.bind_some, field_outputs, same]
        simp [List.filterMap_map, asStr]
      have once : (fields.map Prod.fst).Nodup := by
        refine List.Pairwise.imp ?_ sorted
        intro first second before same
        exact List.lt_irrefl _ (same ▸ before)
      rw [all, lastOf_of_nodup once, finds]

theorem cameTo_ne_success {need : Need} (other : need.status ≠ "succeeded".toList)
    : (cameTo ext need).1 ≠ .success := by
  have status : ofStatus need.status ≠ .success := by
    unfold ofStatus
    split
    case h_1 same =>
      exact absurd (String.toList_ofList.symm.trans (congrArg String.toList same)) other
    all_goals nofun
  simp only [cameTo, if_neg other]
  split_ifs
  · nofun
  · exact status

include reader in
/-- What a task came to that said its line: the engine's word, and where that is a success, whether it was
skipped.
-/
theorem cameTo_said {task : Task} {result : JobResult} {outputs : List (Text × Text)}
    (word : task.word = .said result outputs)
    : (cameTo ext (task.need ext float)).1
      = if task.status = "succeeded".toList then (if result = .skipped then .skipped else .success)
        else if result = .cancelled then .cancelled else ofStatus task.status := by
  have skipped : (some result.text = some "skipped".toList) = (result = .skipped) := by
    cases result <;> decide
  have cancelled : (some result.text = some "cancelled".toList) = (result = .cancelled) := by
    cases result <;> decide
  have status : (task.need ext float).status = task.status := rfl
  simp only [cameTo, noneMade_need reader word, saidOf_need reader word, Option.bind_some, field_result,
    asStr, skipped, cancelled, status, Bool.false_eq_true, if_false]

-- A job's tasks

theorem lookup_hold (held : List (Text × Text)) (output : Text × Text) (name : Text)
    : (hold held output).lookup name
      = if name = output.1 then some output.2 else held.lookup name := by
  obtain ⟨here, value⟩ := output
  rw [hold, List.lookup_append, lookup_cons_if]
  induction held with
  | nil => simp
  | cons first rest ih =>
      obtain ⟨other, text⟩ := first
      rw [List.filter_cons, lookup_cons_if]
      by_cases same : other = here
      · subst same
        simp only [ne_eq, not_true_eq_false, decide_false, Bool.false_eq_true, if_false]
        rw [ih]
        split_ifs <;> rfl
      · simp only [ne_eq, same, not_false_eq_true, decide_true, if_true]
        rw [lookup_cons_if]
        by_cases is : name = other
        · subst is
          simp [same]
        · simp only [if_neg is]
          exact ih

theorem lookup_holds (outputs held : List (Text × Text)) (name : Text)
    : (outputs.foldl hold held).lookup name = (lastOf name outputs).or (held.lookup name) := by
  induction outputs using List.reverseRecOn with
  | nil => rfl
  | append_singleton outputs output ih =>
      rw [List.foldl_append, List.foldl_cons, List.foldl_nil, lookup_hold, lastOf_concat, ih]
      split_ifs <;> rfl

theorem lastOf_append (name : Text) (first second : List (Text × Text))
    : lastOf name (first ++ second) = (lastOf name second).or (lastOf name first) := by
  rw [lastOf, List.reverse_append, List.lookup_append]
  rfl

theorem lookup_addTask (job : Text) (result : JobResult) (outputs : List (Text × Text))
    (jobs : List (Text × NeededJob)) (id : Text)
    : (addTask job result outputs jobs).lookup id
      = if id = job then some (((jobs.lookup id).getD {}).add result outputs) else jobs.lookup id := by
  induction jobs with
  | nil => rw [addTask, lookup_cons_if]; split_ifs <;> rfl
  | cons first rest ih =>
      obtain ⟨here, needed⟩ := first
      rw [addTask]
      split_ifs with same is is
      · subst same is
        simp
      · subst same
        rw [lookup_cons_if, lookup_cons_if, if_neg is, if_neg is]
      · subst is
        rw [lookup_cons_if, lookup_cons_if, if_neg (Ne.symm same), if_neg (Ne.symm same), ih, if_pos rfl]
      · rw [lookup_cons_if, lookup_cons_if, ih, if_neg is]

def jobOf (ext : CiExpr.Externals) (needs : List Need) : NeededJob :=
  needs.foldl (fun job need => job.add (cameTo ext need).1 (cameTo ext need).2) {}

theorem lookup_neededJobs (needs : List Need) (id : Text)
    : (neededJobs ext needs).lookup id
      = if ∃ need ∈ needs, need.job = id then some (jobOf ext (needs.filter fun need => need.job = id))
        else none := by
  induction needs using List.reverseRecOn with
  | nil => simp [neededJobs]
  | append_singleton needs need ih =>
      have step : neededJobs ext (needs ++ [need])
          = addTask need.job (cameTo ext need).1 (cameTo ext need).2 (neededJobs ext needs) := by
        rw [neededJobs, List.foldl_append]
        rfl
      rw [step, lookup_addTask, ih, List.filter_append]
      by_cases same : id = need.job
      · subst same
        have some_ : ∃ other ∈ needs ++ [need], other.job = need.job := ⟨need, by simp, rfl⟩
        rw [if_pos rfl, if_pos some_]
        simp only [List.filter_singleton, decide_true, cond_true, jobOf, List.foldl_append, List.foldl_cons,
          List.foldl_nil]
        split_ifs with before
        · rfl
        · have none_ : needs.filter (fun other => other.job = need.job) = [] := by
            rw [List.filter_eq_nil_iff]
            intro other listed is
            exact before ⟨other, listed, by simpa using is⟩
          rw [none_]
          rfl
      · have apart : need.job ≠ id := Ne.symm same
        simp [same, apart]

theorem jobOf_concat (needs : List Need) (need : Need)
    : jobOf ext (needs ++ [need]) = (jobOf ext needs).add (cameTo ext need).1 (cameTo ext need).2 := by
  rw [jobOf, List.foldl_append]
  rfl

theorem results_jobOf (needs : List Need)
    : (jobOf ext needs).results = needs.map fun need => (cameTo ext need).1 := by
  induction needs using List.reverseRecOn with
  | nil => rfl
  | append_singleton needs need ih =>
      rw [jobOf_concat, NeededJob.add, ih, List.map_append]
      rfl

theorem outputs_jobOf (needs : List Need) (name : Text)
    : (jobOf ext needs).outputs.lookup name
      = lastOf name (needs.flatMap (saidOutputs ext)) := by
  induction needs using List.reverseRecOn with
  | nil => rfl
  | append_singleton needs need ih =>
      have own : (cameTo ext need).2 = saidOutputs ext need := rfl
      rw [jobOf_concat, NeededJob.add, lookup_holds, ih, List.flatMap_append, lastOf_append, own,
        List.flatMap_singleton]

/-- Of the outputs that are read of tasks each name has the value that it has of those handed on, by induction
from the first task.
-/
theorem lastOf_tasks (reader : ReadsSaid ext float) (tasks : List Task) (name : Text)
    : lastOf name ((tasks.map (Task.need ext float)).flatMap (saidOutputs ext))
      = lastOf name (tasks.flatMap (Task.outputs ext float)) := by
  induction tasks with
  | nil => rfl
  | cons task tasks ih =>
      rw [List.map_cons, List.flatMap_cons, List.flatMap_cons, lastOf_append, lastOf_append, ih,
        lastOf_saidOutputs reader]

-- What the jobs after it read

/-- A failure if one failed, else cancelled if one was, else a success if one ran, else skipped. -/
def combined (results : List JobResult) : JobResult :=
  if .failure ∈ results then .failure
  else if .cancelled ∈ results then .cancelled
  else if .success ∈ results then .success
  else .skipped

theorem together_eq (results : List JobResult)
    : together results = combined results := by
  unfold together combined
  split_ifs with failed stopped ran
  · simp [failed]
  · simp [failed, stopped]
  · simp [failed, stopped, ran]
  · simp [failed, stopped, ran]

theorem lookup_map {Item : Type} (fields : List (Text × Item)) (value : Item → Value ext.Num) (name : Text)
    : (fields.map fun (name, item) => (name, value item)).lookup name = (fields.lookup name).map value := by
  induction fields with
  | nil => rfl
  | cons first rest ih =>
      obtain ⟨here, item⟩ := first
      rw [List.map_cons, lookup_cons_if, lookup_cons_if, ih]
      split_ifs <;> rfl

theorem get_object {fields : List (Text × Value ext.Num)} {name : Text} {value : Value ext.Num}
    (has : fields.lookup name = some value)
    : (Value.object fields).get name = value := by
  have find : (fields.find? fun field => field.1 == name).map Prod.snd = some value := by
    rw [← has]
    induction fields with
    | nil => rfl
    | cons first rest ih =>
        obtain ⟨here, item⟩ := first
        rw [lookup_cons_if] at has
        rw [List.find?_cons, lookup_cons_if]
        by_cases same : name = here
        · simp [same]
        · rw [if_neg same] at has
          rw [beq_false_of_ne (Ne.symm same), if_neg same]
          exact ih has
  obtain ⟨field, found, rfl⟩ := Option.map_eq_some_iff.mp find
  simp [Value.get, found]

theorem get_needsContext {needs : List Need} {id : Text} (needed : ∃ need ∈ needs, need.job = id)
    : (needsContext ext needs).get id
      = (jobOf ext (needs.filter fun need => need.job = id)).value := by
  refine get_object ?_
  rw [lookup_map, lookup_neededJobs, if_pos needed]
  rfl

theorem get_result (job : NeededJob)
    : (job.value : Value ext.Num).get "result".toList = .string (together job.results).text :=
  get_object (by rfl)

theorem mem_results {needs : List Need} {id : Text} (needed : ∃ need ∈ needs, need.job = id)
    : (together (jobOf ext (needs.filter fun need => need.job = id)).results).text
      ∈ results (needsContext ext needs) := by
  have found := @lookup_neededJobs ext needs id
  rw [if_pos needed] at found
  obtain ⟨before, after, same, -⟩ := List.lookup_eq_some_iff.mp found
  rw [needsContext, same, results]
  refine List.mem_map.mpr ⟨_, List.mem_map_of_mem (List.mem_append_right before List.mem_cons_self), ?_⟩
  exact congrArg Value.text (get_result _)

theorem get_outputs (job : NeededJob)
    : (job.value : Value ext.Num).get "outputs".toList
      = .object (job.outputs.map fun (name, value) => (name, .string value)) :=
  get_object (by rfl)

/-- A job that runs without a condition, or with one that does not ask how the jobs it needs stand, runs
where all of these succeeded.
-/
theorem all_of_runs {jobIf : Option Text} {context : Json ext.Num} {needs : Value ext.Num}
    (holds : runs jobIf context needs = .ok true)
    (silent : ∀ text ∈ jobIf, ∀ template, condition ext text = .ok template →
      ∀ expr ∈ template.exprs, expr.asksStatus = false)
    : ∀ result ∈ results needs, result = JobResult.success.text := by
  have all : (results needs).all (fun result => result == JobResult.success.text) = true := by
    cases jobIf with
    | none => exact Except.ok.inj holds
    | some text =>
        obtain ⟨template, read, holds⟩ := exists_of_bind_eq_ok holds
        obtain ⟨value, -, holds⟩ := exists_of_bind_eq_ok holds
        have asks : template.exprs.any Expr.asksStatus = false := by
          rw [List.any_eq_false]
          intro expr listed
          rw [silent text rfl template (ok_of_mapError read) expr listed]
          exact Bool.false_ne_true
        have both := Except.ok.inj holds
        rw [asks, Bool.false_or, Bool.and_eq_true] at both
        exact both.2
  intro result listed
  exact eq_of_beq (List.all_eq_true.mp all result listed)

/-- Reads the strings of an object, to its end, and what is after that. -/
def readStrings : Nat → Text → Option (List (Text × Text) × Text)
  | fuel + 1, '"' :: text => do
      let (name, text) ← readJsonString text
      let text ← dropStart [':', '"'] text
      let (value, text) ← readJsonString text
      let (rest, text) ← readStrings fuel (text.dropWhile (· == ','))
      return ((name, value) :: rest, text)
  | _, '}' :: text => some ([], text)
  | _, _ => none

def readSaid {Num : Type} (text : Text) : Option (Json Num) := do
  let text ← dropStart ('{' :: quoteJson "outputs".toList ++ [':', '{']) text
  let (outputs, text) ← readStrings text.length text
  let text ← dropStart (',' :: quoteJson "result".toList ++ [':', '"']) text
  let (result, _) ← readJsonString text
  return saidJson result (outputs.map fun (name, text) => (name, .string text))

def saidReader : CiExpr.Externals :=
  { wholeNumbers with
    fromStr := fun text => (readSaid text).elim (.error "expected value") .ok }

theorem dropStart_append (first rest : Text)
    : dropStart first (first ++ rest) = some rest := by
  rw [dropStart, if_pos (by simp), List.drop_left]

theorem readJsonString_tail (text rest : Text)
    : readJsonString (text.flatMap escapeJson ++ ['"'] ++ rest) = some (text, rest) := by
  rw [List.append_assoc]
  exact readJsonString_quoteJson text rest

theorem readStrings_field (fuel : Nat) (name value text : Text)
    : readStrings (fuel + 1) (quoteJson name ++ ':' :: quoteJson value ++ text)
      = (readStrings fuel (text.dropWhile (· == ','))).map fun (rest, text) => ((name, value) :: rest, text) := by
  have written : quoteJson name ++ ':' :: quoteJson value ++ text
      = '"' :: (name.flatMap escapeJson ++ ['"']
          ++ ([':', '"'] ++ (value.flatMap escapeJson ++ ['"'] ++ text))) := by
    simp [quoteJson]
  rw [written, readStrings, readJsonString_tail]
  simp only [Option.bind_eq_bind, Option.bind_some, dropStart_append, readJsonString_tail]
  cases readStrings fuel (text.dropWhile (· == ',')) <;> rfl

theorem readStrings_compactFields {float : saidReader.Num → Text} (fields : List (Text × Text)) (rest : Text)
    {fuel : Nat} (enough : fields.length ≤ fuel)
    : readStrings fuel
        (compactFields float (fields.map fun (name, text) => (name, .string text)) ++ '}' :: rest)
      = some (fields, rest) := by
  induction fields generalizing fuel with
  | nil => cases fuel <;> rfl
  | cons first others ih =>
      obtain ⟨name, value⟩ := first
      obtain ⟨fuel, rfl⟩ := Nat.exists_eq_add_of_lt enough
      cases others with
      | nil =>
          have written
              : compactFields float [(name, .string value)] ++ '}' :: rest
                = quoteJson name ++ ':' :: quoteJson value ++ '}' :: rest := by
            simp [compactFields, compact]
          have ends (fuel : Nat) : readStrings fuel ('}' :: rest) = some ([], rest) := by cases fuel <;> rfl
          rw [List.map_singleton, written, readStrings_field, List.dropWhile_cons_of_neg (by decide), ends]
          rfl
      | cons next others =>
          obtain ⟨nextName, nextValue⟩ := next
          have begins : ∃ more,
              compactFields float
                (((nextName, nextValue) :: others).map fun (name, text) => (name, .string text)) ++ '}' :: rest
              = '"' :: more := by
            cases others <;> exact ⟨_, rfl⟩
          have written
              : compactFields float
                  (((name, value) :: (nextName, nextValue) :: others).map
                    fun (name, text) => (name, .string text)) ++ '}' :: rest
                = quoteJson name ++ ':' :: quoteJson value ++ ',' :: (compactFields float
                  (((nextName, nextValue) :: others).map fun (name, text) => (name, .string text))
                  ++ '}' :: rest) := by
            simp [compactFields, compact]
          obtain ⟨more, begins⟩ := begins
          rw [written, readStrings_field, List.dropWhile_cons_of_pos rfl, begins,
            List.dropWhile_cons_of_neg (by decide), ← begins, ih (Nat.le_add_right _ _)]
          rfl

theorem length_le_compactFields (float : saidReader.Num → Text) (fields : List (Text × Text))
    : fields.length
      ≤ (compactFields float (fields.map fun (name, text) => (name, .string text))).length := by
  induction fields with
  | nil => exact Nat.le_refl 0
  | cons first others ih =>
      cases others with
      | nil => simp [compactFields, compact, quoteJson]
      | cons next others =>
          simp only [List.map_cons, compactFields, List.length_append, List.length_cons] at ih ⊢
          omega

theorem readSaid_compact (float : saidReader.Num → Text) (result : Text) (fields : List (Text × Text))
    : let json := saidJson result (fields.map fun (name, text) => (name, .string text))
      readSaid (compact float json) = some json := by
  have written
      : compact float (saidJson result (fields.map fun (name, text) => (name, .string text)))
        = '{' :: quoteJson "outputs".toList ++ [':', '{']
          ++ (compactFields float (fields.map fun (name, text) => (name, .string text)) ++ '}' ::
            (',' :: quoteJson "result".toList ++ [':', '"']
              ++ (result.flatMap escapeJson ++ ['"'] ++ ['}']))) := by
    simp [saidJson, compact, compactFields, quoteJson]
  have enough := length_le_compactFields float fields
  dsimp only
  rw [readSaid, written, dropStart_append, Option.bind_eq_bind, Option.bind_some,
    readStrings_compactFields fields _ (by rw [List.length_append]; omega), Option.bind_eq_bind,
    Option.bind_some]
  simp only [dropStart_append, Option.bind_eq_bind, Option.bind_some, readJsonString_tail]
  rfl

theorem saidReader_reads (float : saidReader.Num → Text)
    : ReadsSaid saidReader float where
  written result fields _ :=
    congrArg (fun said : Option (Json saidReader.Num) =>
        said.elim (Except.error "expected value" : Except String (Json saidReader.Num)) Except.ok)
      (readSaid_compact float result fields)
  colon _ := rfl

/-- A job of two instances, of which the second failed after it said a success. -/
def twoInstances : List Task :=
  [⟨"build".toList, "succeeded".toList, .said .success [("digest".toList, "a \"b\"".toList)]⟩,
    ⟨"build".toList, "failed".toList, .said .success []⟩]

end Dagron.CiExec
