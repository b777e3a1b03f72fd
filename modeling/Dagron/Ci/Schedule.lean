import Dagron.Ci.CronFires
import Mathlib.Data.Char
import Mathlib.Data.List.Lex
import Mathlib.Data.List.Sort
import Mathlib.Data.Prod.Lex

/-! The schedules of a repository's workflows: the rows that are kept of them from look to look, and what fires
at each.
-/

namespace Dagron.Ci
open Dagron.Library

def GRACE : Int :=
  3600

/-- One cron of one workflow file: when it next fires and last fired. -/
structure ScheduleRow where
  workflow
    : List Char
  cron
    : List Char
  next_at
    : Option Int
  last_at
    : Option Int

/-- A cron that fired. -/
structure Fired where
  workflow
    : List Char
  cron
    : List Char
  at_
    : Int
  git_ref
    : List Char
  sha
    : List Char

namespace ScheduleRow

/-- A row's place among others: its workflow file, and its cron. -/
def key (row : ScheduleRow) : List Char ×ₗ List Char :=
  toLex (row.workflow, row.cron)

end ScheduleRow

/-- A list without those that have the key of the one kept before. -/
def dedupAfter (last : ScheduleRow) : List ScheduleRow → List ScheduleRow
  | [] => []
  | row :: rest =>
      if row.workflow = last.workflow ∧ row.cron = last.cron then dedupAfter last rest
      else row :: dedupAfter row rest

def dedup : List ScheduleRow → List ScheduleRow
  | [] => []
  | row :: rest => row :: dedupAfter row rest

section Looking

variable (debug : List Char → String)

def nextOf (cron : List Char) (after : Int) (last : Option Int) : Option Int :=
  (Cron.parse debug cron).toOption.bind fun cron => cron.next after last

/-- The row of a cron that is read now: the one that is kept of it, if any. -/
def carry (kept : List ScheduleRow) (now : Int) (read : List Char × List Char) : ScheduleRow :=
  -- Of rows under one key, a map has the last.
  match kept.reverse.find? fun row => row.key = toLex read with
  | some row => row
  | none => ⟨read.1, read.2, nextOf debug read.2 now none, none⟩

/-- The schedules read now, each keeping when it last fired and next fires where it was already kept; a new
one next fires at its first time from now on.
-/
def carried (kept : List ScheduleRow) (crons : List (List Char × List Char)) (now : Int)
    : List ScheduleRow :=
  dedup ((crons.map (carry debug kept now)).mergeSort fun first second =>
    decide (first.key ≤ second.key))

/-- Fires a row whose time has come, and moves it to its next time. A time more than the grace past is passed
over, not fired.
-/
def fireRow (now : Int) (branch sha : List Char) (row : ScheduleRow) : ScheduleRow × Option Fired :=
  match row.next_at.filter (· ≤ now) with
  | none => (row, none)
  | some at_ =>
      if now - at_ > GRACE then
        ({ row with next_at := nextOf debug row.cron now row.last_at }, none)
      else
        ({ row with last_at := some at_, next_at := nextOf debug row.cron now (some at_) },
          some ⟨row.workflow, row.cron, at_, branch, sha⟩)

def fire (rows : List ScheduleRow) (now : Int) (branch sha : List Char)
    : List ScheduleRow × List Fired :=
  let moved := rows.map (fireRow debug now branch sha)
  (moved.map Prod.fst, moved.filterMap Prod.snd)

/-- A look at a repository: the time, its head, and the crons of its workflow files, which are read again where
the head has moved. A look that fails, or that loses its claim, leaves the rows as they were.
-/
structure Look where
  now
    : Int
  branch
    : List Char
  sha
    : List Char
  crons
    : Option (List (List Char × List Char))

/-- What a look makes of the rows that are kept, and what fires. -/
def look (kept : List ScheduleRow) (look : Look) : List ScheduleRow × List Fired :=
  let rows := match look.crons with
    | some crons => carried debug kept crons look.now
    | none => kept
  fire debug rows look.now look.branch look.sha

/-- What fires at each of some looks, one after the other. -/
def looks : List ScheduleRow → List Look → List (List Fired)
  | _, [] => []
  | kept, one :: rest =>
      let (rows, fired) := look debug kept one
      fired :: looks rows rest

-- The rows of a cron

def ofKey (key : List Char ×ₗ List Char) (rows : List ScheduleRow) : List ScheduleRow :=
  rows.filter (·.key = key)

theorem ofKey_eq {rows : List ScheduleRow} {row : ScheduleRow}
    (ordered : rows.Pairwise fun first second => first.key < second.key) (there : row ∈ rows)
    : ofKey row.key rows = [row] := by
  induction rows with
  | nil => cases there
  | cons first rest ih =>
      obtain ⟨less, ordered⟩ := List.pairwise_cons.mp ordered
      unfold ofKey at ih ⊢
      obtain rfl | there := List.mem_cons.mp there
      · rw [List.filter_cons_of_pos (by simp)]
        refine congrArg (row :: ·) (List.filter_eq_nil_iff.mpr fun other later => ?_)
        simpa using (less other later).ne'
      · have differ := (less row there).ne
        rw [List.filter_cons_of_neg (by simpa using differ)]
        exact ih ordered there

/-- Rows in order are in order without those that repeat a key, and every key is still there: by induction along
them.
-/
theorem dedupAfter_spec {last : ScheduleRow} {rows : List ScheduleRow}
    (ordered : (last :: rows).Pairwise fun first second => first.key ≤ second.key)
    : (last :: dedupAfter last rows).Pairwise (fun first second => first.key < second.key)
        ∧ (∀ row ∈ dedupAfter last rows, row ∈ rows)
        ∧ ∀ row ∈ last :: rows, ∃ kept ∈ last :: dedupAfter last rows, kept.key = row.key := by
  induction rows generalizing last with
  | nil => exact ⟨List.pairwise_singleton _ _, fun _ none_ => (nomatch none_), fun row there => ⟨row, there, rfl⟩⟩
  | cons row rest ih =>
      obtain ⟨least, ordered'⟩ := List.pairwise_cons.mp ordered
      rw [dedupAfter]
      split
      next same =>
        have key : row.key = last.key := congrArg toLex (Prod.ext same.1 same.2)
        have skipped : (last :: rest).Pairwise fun first second => first.key ≤ second.key :=
          ordered.sublist (.cons_cons last (List.sublist_cons_self row rest))
        obtain ⟨ordered, from_, all⟩ := ih skipped
        refine ⟨ordered, fun other there => List.mem_cons_of_mem row (from_ other there), ?_⟩
        intro other there
        obtain rfl | there := List.mem_cons.mp there
        · exact ⟨other, List.mem_cons_self, rfl⟩
        · obtain rfl | there := List.mem_cons.mp there
          · exact ⟨last, List.mem_cons_self, key.symm⟩
          · exact all other (List.mem_cons_of_mem last there)
      next differ =>
        obtain ⟨ordered, from_, all⟩ := ih ordered'
        have less : last.key < row.key := by
          refine lt_of_le_of_ne (least row List.mem_cons_self) fun same => differ ?_
          obtain ⟨workflow, cron⟩ := Prod.mk.inj (toLex.injective same)
          exact ⟨workflow.symm, cron.symm⟩
        refine ⟨List.pairwise_cons.mpr ⟨fun other there => ?_, ordered⟩, fun other there => ?_,
          fun other there => ?_⟩
        · obtain rfl | there := List.mem_cons.mp there
          · exact less
          · exact less.trans ((List.pairwise_cons.mp ordered).1 other there)
        · obtain rfl | there := List.mem_cons.mp there
          · exact List.mem_cons_self
          · exact List.mem_cons_of_mem row (from_ other there)
        · obtain rfl | there := List.mem_cons.mp there
          · exact ⟨other, List.mem_cons_self, rfl⟩
          · obtain ⟨kept, there, same⟩ := all other there
            exact ⟨kept, List.mem_cons_of_mem last there, same⟩

theorem dedup_spec {rows : List ScheduleRow}
    (ordered : rows.Pairwise fun first second => first.key ≤ second.key)
    : (dedup rows).Pairwise (fun first second => first.key < second.key)
        ∧ (∀ row ∈ dedup rows, row ∈ rows)
        ∧ ∀ row ∈ rows, ∃ kept ∈ dedup rows, kept.key = row.key := by
  cases rows with
  | nil => exact ⟨.nil, fun _ none_ => (nomatch none_), fun _ none_ => (nomatch none_)⟩
  | cons row rest =>
      obtain ⟨ordered, from_, all⟩ := dedupAfter_spec ordered
      refine ⟨ordered, fun other there => ?_, all⟩
      exact List.mem_cons.mpr ((List.mem_cons.mp there).imp_right (from_ other))

variable {debug} {kept rows : List ScheduleRow} {now : Int}

theorem key_carry (read : List Char × List Char)
    : (carry debug kept now read).key = toLex read := by
  unfold carry
  split
  next row found => simpa using List.find?_some found
  next => rfl

theorem ofKey_carried {crons : List (List Char × List Char)} {read : List Char × List Char}
    (there : read ∈ crons)
    : ofKey (toLex read) (carried debug kept crons now) = [carry debug kept now read] := by
  have ordered := @List.pairwise_mergeSort _ (fun first second => decide (first.key ≤ second.key))
    (by simpa using fun _ _ _ => le_trans) (by simpa using fun _ _ => le_total _ _)
    (crons.map (carry debug kept now))
  simp only [decide_eq_true_eq] at ordered
  obtain ⟨ordered, from_, all⟩ := dedup_spec ordered
  obtain ⟨row, member, same⟩ := all (carry debug kept now read)
    (List.mem_mergeSort.mpr (List.mem_map_of_mem there))
  rw [key_carry] at same
  obtain ⟨read', there', rfl⟩ := List.mem_map.mp (List.mem_mergeSort.mp (from_ row member))
  rw [key_carry] at same
  obtain rfl := toLex.injective same
  have found := ofKey_eq ordered member
  rwa [key_carry] at found

theorem carry_eq (read : List Char × List Char)
    : carry debug kept now read = ((ofKey (toLex read) kept).getLast?).getD
        ⟨read.1, read.2, nextOf debug read.2 now none, none⟩ := by
  rw [carry, ofKey, ← List.head?_reverse, ← List.filter_reverse, List.head?_filter]
  split
  next found => rw [found]; rfl
  next absent => rw [absent]; rfl

def firesOf (key : List Char ×ₗ List Char) (fired : List Fired) : List Fired :=
  fired.filter fun one => toLex (one.workflow, one.cron) = key

theorem key_fireRow {branch sha : List Char} (row : ScheduleRow)
    : (fireRow debug now branch sha row).1.key = row.key
        ∧ ∀ fired ∈ (fireRow debug now branch sha row).2, toLex (fired.workflow, fired.cron) = row.key := by
  unfold fireRow
  split
  next => exact ⟨rfl, fun fired none_ => (nomatch none_)⟩
  next time _ =>
    split
    next => exact ⟨rfl, fun fired none_ => (nomatch none_)⟩
    next =>
      refine ⟨rfl, fun fired is_ => ?_⟩
      obtain rfl := Option.some.inj is_
      rfl

theorem ofKey_fire (key : List Char ×ₗ List Char) (branch sha : List Char)
    : ofKey key (fire debug rows now branch sha).1
          = (ofKey key rows).map (fun row => (fireRow debug now branch sha row).1)
        ∧ firesOf key (fire debug rows now branch sha).2
          = (ofKey key rows).filterMap (fun row => (fireRow debug now branch sha row).2) := by
  unfold ofKey firesOf fire
  dsimp only
  rw [List.map_map, List.filterMap_map]
  induction rows with
  | nil => exact ⟨rfl, rfl⟩
  | cons row rest ih =>
      obtain ⟨rows_, fires_⟩ := ih
      obtain ⟨same, fired_⟩ := @key_fireRow debug now branch sha row
      rw [List.map_cons, List.filterMap_cons, Function.comp_apply, Function.comp_apply]
      by_cases here : row.key = key
      · rw [List.filter_cons_of_pos (by simpa using same.trans here), List.filter_cons_of_pos (by simpa using here),
          List.map_cons, List.filterMap_cons, rows_]
        refine ⟨rfl, ?_⟩
        cases fired : (fireRow debug now branch sha row).2 with
        | none => exact fires_
        | some one =>
            dsimp only
            rw [List.filter_cons_of_pos (by simpa using (fired_ one fired).trans here), fires_]
      · rw [List.filter_cons_of_neg (by simpa [same] using here), List.filter_cons_of_neg (by simpa using here)]
        refine ⟨rows_, ?_⟩
        cases fired : (fireRow debug now branch sha row).2 with
        | none => exact fires_
        | some one =>
            dsimp only
            rwa [List.filter_cons_of_neg (by simpa [fired_ one fired] using here)]

/-- Whether a row of a key is as its cron is: none yet, or one that last fired when it says and that next fires
at a minute of the cron, no sooner than the shortest time after.
-/
def Kept (cron : Cron) (key : List Char ×ₗ List Char) (last : Option Int) (rows : List ScheduleRow) : Prop :=
  (ofKey key rows = [] ∧ last = none)
    ∨ ∃ row, ofKey key rows = [row] ∧ row.last_at = last
      ∧ ∀ time ∈ row.next_at, cron.Fires time ∧ ∀ before ∈ last, before + SHORTEST ≤ time

variable {cron : Cron} {workflow text : List Char} {last : Option Int}

theorem nextOf_spec (parsed : Cron.parse debug text = .ok cron) {after time : Int}
    (found : time ∈ nextOf debug text after last)
    : cron.Fires time ∧ ∀ before ∈ last, before + SHORTEST ≤ time := by
  rw [nextOf, parsed] at found
  have next := Cron.next_spec cron after last
  rw [show cron.next after last = some time from found] at next
  exact ⟨next.1.1.1, next.1.1.2.2⟩

theorem Kept.carried (parsed : Cron.parse debug text = .ok cron)
    (was : Kept cron (toLex (workflow, text)) last rows) {crons : List (List Char × List Char)}
    (there : (workflow, text) ∈ crons)
    : Kept cron (toLex (workflow, text)) last (carried debug rows crons now) := by
  refine .inr ⟨_, ofKey_carried there, ?_⟩
  rw [carry_eq]
  obtain ⟨absent, rfl⟩ | ⟨row, only, row_⟩ := was
  · rw [absent]
    exact ⟨rfl, fun time found => nextOf_spec parsed found⟩
  · rw [only]
    exact row_

/-- A row that is kept fires once at most at a look: at a minute of its cron that has come within the grace, no
sooner than the shortest time after it fired last. It is kept then.
-/
theorem Kept.fire (parsed : Cron.parse debug text = .ok cron)
    (was : Kept cron (toLex (workflow, text)) last rows) (now : Int) (branch sha : List Char)
    : (firesOf (toLex (workflow, text)) (fire debug rows now branch sha).2 = []
          ∧ Kept cron (toLex (workflow, text)) last (fire debug rows now branch sha).1)
        ∨ ∃ fired, firesOf (toLex (workflow, text)) (fire debug rows now branch sha).2 = [fired]
          ∧ cron.Fires fired.at_ ∧ (∀ before ∈ last, before + SHORTEST ≤ fired.at_)
          ∧ fired.at_ ≤ now ∧ now ≤ fired.at_ + GRACE
          ∧ Kept cron (toLex (workflow, text)) (some fired.at_) (fire debug rows now branch sha).1 := by
  obtain ⟨rows_, fires_⟩ := @ofKey_fire debug rows now (toLex (workflow, text)) branch sha
  obtain ⟨absent, rfl⟩ | ⟨row, only, rfl, next⟩ := was
  · rw [absent] at rows_ fires_
    exact .inl ⟨fires_, .inl ⟨rows_, rfl⟩⟩
  rw [only] at rows_ fires_
  have keyed : row.key = toLex (workflow, text) := by
    have member : row ∈ ofKey (toLex (workflow, text)) rows := only ▸ List.mem_singleton_self row
    simpa [ofKey] using (List.mem_filter.mp member).2
  have text_ : row.cron = text := congrArg Prod.snd (toLex.injective keyed)
  unfold fireRow at rows_ fires_
  rw [List.map_singleton] at rows_
  simp only [List.filterMap_cons, List.filterMap_nil, text_] at rows_ fires_
  cases due : row.next_at.filter (· ≤ now) with
  | none =>
      simp only [due] at rows_ fires_
      exact .inl ⟨fires_, .inr ⟨row, rows_, rfl, next⟩⟩
  | some time =>
      obtain ⟨next_, come⟩ := Option.filter_eq_some_iff.mp due
      obtain ⟨fires, spaced⟩ := next time next_
      simp only [due] at rows_ fires_
      by_cases late : now - time > GRACE
      · simp only [if_pos late] at rows_ fires_
        exact .inl ⟨fires_, .inr ⟨_, rows_, rfl, fun time found => nextOf_spec parsed found⟩⟩
      · simp only [if_neg late] at rows_ fires_
        refine .inr ⟨_, fires_, fires, spaced, by simpa using come, ?_,
          .inr ⟨_, rows_, rfl, fun time found => nextOf_spec parsed found⟩⟩
        dsimp only
        omega

-- Looks

/-- Times that are the shortest time apart at least, each after the one before. -/
def Spaced (fired : List Fired) : Prop :=
  fired.Pairwise fun first second => first.at_ + SHORTEST ≤ second.at_

/-- At any looks each of which still reads a cron, if it reads any, the cron fires once at most at each, at minutes
of it that have come within the grace, the shortest time apart at least: by induction along the looks.
-/
theorem looks_spec (parsed : Cron.parse debug text = .ok cron)
    (was : Kept cron (toLex (workflow, text)) last rows) {seen : List Look}
    (still : ∀ look ∈ seen, ∀ crons ∈ look.crons, (workflow, text) ∈ crons)
    : List.Forall₂ (fun look fired => (firesOf (toLex (workflow, text)) fired).length ≤ 1
          ∧ ∀ one ∈ firesOf (toLex (workflow, text)) fired,
            cron.Fires one.at_ ∧ one.at_ ≤ look.now ∧ look.now ≤ one.at_ + GRACE)
          seen (looks debug rows seen)
        ∧ Spaced ((looks debug rows seen).flatMap (firesOf (toLex (workflow, text))))
        ∧ ∀ one ∈ (looks debug rows seen).flatMap (firesOf (toLex (workflow, text))),
            ∀ before ∈ last, before + SHORTEST ≤ one.at_ := by
  induction seen generalizing rows last with
  | nil => exact ⟨.nil, .nil, fun _ none_ => (nomatch none_)⟩
  | cons one rest ih =>
      obtain ⟨here, later⟩ := List.forall_mem_cons.mp still
      have read : Kept cron (toLex (workflow, text)) last
          (match one.crons with
            | some crons => carried debug rows crons one.now
            | none => rows) := by
        split
        next crons found => exact was.carried parsed (here crons found)
        next => exact was
      rw [looks]
      unfold look
      dsimp only
      obtain ⟨none_, kept⟩ | ⟨fired, only, fires, spaced, come, timely, kept⟩ :=
        read.fire parsed one.now one.branch one.sha
      · obtain ⟨each, apart, since⟩ := ih kept later
        rw [List.flatMap_cons, none_, List.nil_append]
        exact ⟨.cons (by simp [none_]) each, apart, since⟩
      · obtain ⟨each, apart, since⟩ := ih kept later
        rw [List.flatMap_cons, only, List.singleton_append]
        refine ⟨.cons (by simp [only, fires, come, timely]) each, ?_, ?_⟩
        · exact List.pairwise_cons.mpr ⟨fun other there => since other there fired.at_ rfl, apart⟩
        · intro other there before last_
          obtain rfl | there := List.mem_cons.mp there
          · exact spaced before last_
          · have after := since other there fired.at_ rfl
            have before_ := spaced before last_
            have positive : 0 < SHORTEST := by decide
            omega

/-- Times a cron fires at one after the other, each the next after the one before, and the one that comes next. -/
inductive Cron.Follows (cron : Cron) : Option Int → List Int → Option Int → Prop
  | none_ (next : Option Int) : Follows cron next [] next
  | fires {time : Int} {times : List Int} {last : Option Int}
      (more : Follows cron (cron.next time (some time)) times last)
      : Follows cron (some time) (time :: times) last

/-- After it fires, a cron that is looked at before the shortest time has gone by is next when it would be anyway. -/
theorem nextOf_prompt (parsed : Cron.parse debug text = .ok cron) {time : Int} (come : time ≤ now)
    (prompt : now < time + SHORTEST)
    : nextOf debug text now (some time) = cron.next time (some time) := by
  have first : Cron.firstMinute now (some time) = Cron.firstMinute time (some time) := by
    unfold Cron.firstMinute
    unfold SHORTEST at prompt ⊢
    dsimp only
    omega
  rw [nextOf, parsed]
  change cron.next now (some time) = _
  rw [Cron.next, Cron.next, first]

/-- At looks that come one after the other within the shortest time between fires, and that read a cron of which a row
is kept, no time of it is passed over: it fires at its next time and each that follows, up to the last look.
-/
theorem looks_miss_nothing {row : ScheduleRow} (parsed : Cron.parse debug row.cron = .ok cron)
    (only : ofKey row.key rows = [row]) {before : Int} (ahead : ∀ time ∈ row.next_at, before < time)
    {seen : List Look} (still : ∀ look ∈ seen, ∀ crons ∈ look.crons, (row.workflow, row.cron) ∈ crons)
    (often : (before :: seen.map Look.now).IsChain fun earlier later => later < earlier + SHORTEST)
    : ∃ next, cron.Follows row.next_at (((looks debug rows seen).flatMap (firesOf row.key)).map Fired.at_) next
        ∧ ∀ time ∈ next, (seen.map Look.now).getLastD before < time := by
  induction seen generalizing rows row before with
  | nil => exact ⟨_, .none_ _, ahead⟩
  | cons one rest ih =>
      obtain ⟨here, later⟩ := List.forall_mem_cons.mp still
      obtain ⟨soon, often⟩ := List.isChain_cons_cons.mp often
      have moved {rows : List ScheduleRow} (only : ofKey row.key rows = [row])
          : ∃ next, cron.Follows row.next_at
              ((firesOf row.key (fire debug rows one.now one.branch one.sha).2 ++ (looks debug
                (fire debug rows one.now one.branch one.sha).1 rest).flatMap (firesOf row.key)).map Fired.at_) next
            ∧ ∀ time ∈ next, ((one :: rest).map Look.now).getLastD before < time := by
        obtain ⟨rows_, fires_⟩ := @ofKey_fire debug rows one.now row.key one.branch one.sha
        rw [only, List.map_singleton] at rows_
        rw [fires_, only, List.map_cons, List.getLastD_cons, List.filterMap_cons, List.filterMap_nil]
        unfold fireRow at rows_ ⊢
        cases due : row.next_at.filter (· ≤ one.now) with
        | none =>
            simp only [due] at rows_ ⊢
            refine ih parsed rows_ (fun time next => ?_) later often
            simpa using Option.filter_eq_none_iff.mp due time next
        | some time =>
            obtain ⟨next, come⟩ := Option.filter_eq_some_iff.mp due
            have passed := ahead time next
            have prompt : one.now < time + SHORTEST := by omega
            have timely : ¬ one.now - time > GRACE := by
              unfold GRACE
              unfold SHORTEST at prompt
              omega
            simp only [due, if_neg timely] at rows_ ⊢
            have moved := @ih _ { row with last_at := some time, next_at := _ } parsed rows_ one.now ?_ later often
            · obtain ⟨last, follows, after⟩ := moved
              rw [nextOf_prompt parsed (of_decide_eq_true come) prompt] at follows
              rw [next]
              exact ⟨last, .fires follows, after⟩
            · exact fun time' found => prompt.trans_le ((nextOf_spec parsed found).2 time rfl)
      rw [looks]
      unfold look
      dsimp only
      split
      next crons found =>
        refine moved ?_
        rw [ScheduleRow.key, ofKey_carried (here crons found), carry_eq]
        exact congrArg (fun rows : List ScheduleRow => [rows.getLast?.getD _]) only
      next => exact moved only

/-- A minute that cron runs at after a time and no sooner than the shortest time after the fire before. -/
def Line.Due (line : Line) (after : Int) (last : Option Int) (time : Int) : Prop :=
  (time % 60 = 0 ∧ line.Runs time) ∧ after < time ∧ ∀ before ∈ last, before + SHORTEST ≤ time

/-- A cron fires when cron would. Its next time is the first that is due, if one is within the horizon, and at any
looks that keep a row of it, it fires once at most at each, at minutes of it that have come within the grace, the
shortest time apart at least.
-/
structure FiresAsCron (debug : List Char → String) (cron : Cron) (text : List Char) : Prop where
  fires
    : ∀ secs, cron.firesAt secs ↔ (Line.of text).Runs secs
  next
    : ∀ after last,
        match cron.next after last with
        | some found => IsLeast {time | (Line.of text).Due after last time} found
            ∧ found < Cron.firstMinute after last + Cron.horizon
        | none => ∀ time, (Line.of text).Due after last time →
            Cron.firstMinute after last + Cron.horizon ≤ time
  kept
    : ∀ workflow rows seen, ofKey (toLex (workflow, text)) rows = [] →
        (∀ look ∈ seen, ∀ crons ∈ look.crons, (workflow, text) ∈ crons) →
        List.Forall₂ (fun look fired => (firesOf (toLex (workflow, text)) fired).length ≤ 1
            ∧ ∀ one ∈ firesOf (toLex (workflow, text)) fired,
              (one.at_ % 60 = 0 ∧ (Line.of text).Runs one.at_)
                ∧ one.at_ ≤ look.now ∧ look.now ≤ one.at_ + GRACE)
          seen (looks debug rows seen)
        ∧ Spaced ((looks debug rows seen).flatMap (firesOf (toLex (workflow, text))))

/-- A cron that is read fires as cron's own does just where each day field that begins with a star names every
day there is.
-/
theorem fires_as_cron_iff (parsed : Cron.parse debug text = .ok cron)
    : FiresAsCron debug cron text ↔ (Line.of text).StarsAreWhole := by
  have reads := parse_spec parsed
  refine ⟨fun same => (Cron.firesAt_runs_iff reads).mp same.fires, fun whole => ?_⟩
  have same := (Cron.firesAt_runs_iff reads).mpr whole
  have minutes (time : Int) : cron.Fires time ↔ time % 60 = 0 ∧ (Line.of text).Runs time :=
    and_congr_right fun _ => same time
  constructor
  · exact same
  · intro after last
    simp only [Line.Due, ← minutes]
    exact Cron.next_spec cron after last
  · intro workflow rows seen absent still
    simp only [← minutes]
    obtain ⟨each, apart, -⟩ := @looks_spec debug rows cron workflow text none parsed (.inl ⟨absent, rfl⟩) seen still
    exact ⟨each, apart⟩

end Looking

def quoted (text : List Char) : String :=
  "\"" ++ String.ofList text ++ "\""

theorem fires_as_cron_weekdays
    : ∃ cron, Cron.parse quoted "0 9 * * MON-FRI".toList = .ok cron
        ∧ FiresAsCron quoted cron "0 9 * * MON-FRI".toList := by
  refine ⟨_, rfl, (fires_as_cron_iff rfl).mpr ⟨?_, fun starred => absurd (by decide) starred⟩⟩
  rintro - day ⟨month, is_month, since, till⟩
  have month_ := is_month.within (fields_named (by simp))
  exact ⟨['*'], by decide, _, .range .every, since, till.trans (Calendar.longest_le month_.2),
    Nat.one_dvd _⟩

theorem looks_miss_nothing_weekdays
    : ∃ cron next, Cron.parse quoted "0 9 * * MON-FRI".toList = .ok cron
        ∧ cron.Follows (some 1793005200) (((looks quoted [⟨[], "0 9 * * MON-FRI".toList, some 1793005200, none⟩]
            [⟨1793005230, [], [], none⟩]).flatMap (firesOf ⟨[], "0 9 * * MON-FRI".toList⟩)).map Fired.at_) next
        ∧ ∀ time ∈ next, 1793005230 < time := by
  obtain ⟨cron, parsed⟩ : ∃ cron, Cron.parse quoted "0 9 * * MON-FRI".toList = .ok cron := ⟨_, rfl⟩
  have one (row : ScheduleRow) : ofKey row.key [row] = [row] := by
    simp [ofKey]
  obtain ⟨next, follows, later⟩ := @looks_miss_nothing quoted _ _ ⟨[], _, some 1793005200, none⟩ parsed (one _) 1793005190
    (by decide) [⟨1793005230, [], [], none⟩] (by simp) (by decide)
  exact ⟨cron, next, parsed, follows, later⟩

/-- Every other day of the month, and Mondays: the 26th of October of 2026 is a Monday, and no day of both. -/
theorem even_monday_fires
    : ∃ cron, Cron.parse quoted "0 0 */2 * 1".toList = .ok cron
        ∧ cron.firesAt 1792972800 ∧ ¬ (Line.of "0 0 */2 * 1".toList).Runs 1792972800 := by
  refine ⟨_, rfl, by decide, ?_⟩
  rintro ⟨date, number, runs, -⟩
  have told : civil (1792972800 / 86400) = (2026, 10, 26) := by decide
  rw [← number, civil_number, Prod.mk.injEq, Prod.mk.injEq] at told
  have day : date.day = 26 := told.2.2
  rw [Line.DayRuns, if_neg (by decide), day, ← (@parse_spec quoted _ _ rfl).days] at runs
  exact absurd runs.1 (by decide)

end Dagron.Ci
