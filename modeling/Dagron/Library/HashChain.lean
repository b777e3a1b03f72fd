import Mathlib.Data.List.Chain
import Mathlib.Data.List.Nodup
import Mathlib.Data.List.Perm.Basic

/-! Records that each name the one before by its digest, oldest first: where digests do not
collide, the last record settles all before it.
-/

namespace Dagron.Library

variable {Record Digest : Type} (digest : Record → Digest) (prev : Record → Option Digest)

def HashChain (chain : List Record) : Prop :=
  chain.IsChain (fun earlier later => prev later = some (digest earlier))

/-- Whether what the first record names, if anything, is none of the records. -/
def Anchored (chain : List Record) : Prop :=
  ∀ first ∈ chain.head?, ∀ record ∈ chain, prev first ≠ some (digest record)

variable {digest prev} {chain other : List Record}

theorem HashChain.exists_prev {first : Record} {rest : List Record}
    (linked : HashChain digest prev (first :: rest)) {record : Record} (listed : record ∈ rest)
    : ∃ earlier ∈ first :: rest, prev record = some (digest earlier) := by
  induction rest generalizing first with
  | nil => cases listed
  | cons next rest ih =>
      obtain ⟨link, linked⟩ := List.isChain_cons_cons.mp linked
      rcases List.mem_cons.mp listed with rfl | later
      · exact ⟨first, List.mem_cons_self, link⟩
      · obtain ⟨earlier, among, names⟩ := ih linked later
        exact ⟨earlier, List.mem_cons_of_mem _ among, names⟩

theorem HashChain.prev_of_append {first : Record} {before rest : List Record}
    (linked : HashChain digest prev (before ++ first :: rest)) (some_ : before ≠ [])
    : ∃ record ∈ before, prev first = some (digest record) := by
  refine ⟨before.getLast some_, List.getLast_mem some_, ?_⟩
  exact (List.isChain_append.mp linked).2.2 _ (List.getLast?_eq_some_getLast some_) _ rfl

theorem Anchored.prefix (anchored : Anchored digest prev chain) (start : other <+: chain)
    : Anchored digest prev other := by
  intro first head record listed
  obtain ⟨rest, rfl⟩ := start
  cases other with
  | nil => cases head
  | cons => exact anchored first head record (List.mem_append_left _ listed)

section Injective

variable (injective : Function.Injective digest)

include injective

/-- Of two chains that end in the same record, one is the end of the other: by induction from
the last record back, each of which names the one before.
-/
theorem HashChain.suffix_or_suffix (linked : HashChain digest prev chain)
    (linked' : HashChain digest prev other) (last : chain.getLast? = other.getLast?)
    : chain <:+ other ∨ other <:+ chain := by
  have back (first second : List Record)
      (linked : first.IsChain (fun later earlier => prev later = some (digest earlier)))
      (linked' : second.IsChain (fun later earlier => prev later = some (digest earlier)))
      (head : first.head? = second.head?) : first <+: second ∨ second <+: first := by
    induction first generalizing second with
    | nil => exact .inl List.nil_prefix
    | cons record rest ih =>
        cases second with
        | nil => cases head
        | cons record' rest' =>
            obtain rfl := Option.some.inj head
            rw [List.cons_prefix_cons, List.cons_prefix_cons]
            cases rest with
            | nil => exact .inl ⟨rfl, List.nil_prefix⟩
            | cons earlier rest =>
                cases rest' with
                | nil => exact .inr ⟨rfl, List.nil_prefix⟩
                | cons earlier' rest' =>
                    obtain ⟨link, linked⟩ := List.isChain_cons_cons.mp linked
                    obtain ⟨link', linked'⟩ := List.isChain_cons_cons.mp linked'
                    obtain rfl := injective (Option.some.inj (link.symm.trans link'))
                    exact (ih _ linked linked' rfl).imp (⟨rfl, ·⟩) (⟨rfl, ·⟩)
  have ends := back chain.reverse other.reverse (List.isChain_reverse.mpr linked)
    (List.isChain_reverse.mpr linked') (by simpa using last)
  simpa using ends

theorem HashChain.eq_of_length (linked : HashChain digest prev chain)
    (linked' : HashChain digest prev other) (last : chain.getLast? = other.getLast?)
    (length : chain.length = other.length)
    : chain = other := by
  rcases linked.suffix_or_suffix injective linked' last with shorter | shorter
  · exact shorter.eq_of_length length
  · exact (shorter.eq_of_length length.symm).symm

theorem HashChain.eq_of_ends (linked : HashChain digest prev chain)
    (linked' : HashChain digest prev other) (anchored : Anchored digest prev chain)
    (anchored' : Anchored digest prev other) (first : chain.head? = other.head?)
    (last : chain.getLast? = other.getLast?)
    : chain = other := by
  have whole {short long : List Record} (linked : HashChain digest prev long)
      (anchored : Anchored digest prev long) (same : short.head? = long.head?)
      (ends : short <:+ long) : short = long := by
    obtain ⟨before, rfl⟩ := ends
    cases short with
    | nil => exact (List.head?_eq_none_iff.mp same.symm).symm
    | cons record rest =>
        by_cases none_ : before = []
        · simp [none_]
        · obtain ⟨earlier, among, names⟩ := linked.prev_of_append none_
          exact absurd names (anchored record same.symm earlier (List.mem_append_left _ among))
  rcases linked.suffix_or_suffix injective linked' last with shorter | shorter
  · exact whole linked' anchored' first shorter
  · exact (whole linked anchored first.symm shorter).symm

/-- No record is twice in an anchored chain: by induction from its end, where the record would
end two different starts of it.
-/
theorem HashChain.nodup (linked : HashChain digest prev chain) (anchored : Anchored digest prev chain)
    : chain.Nodup := by
  induction chain using List.reverseRecOn with
  | nil => exact List.nodup_nil
  | append_singleton front record ih =>
      have start := List.prefix_append front [record]
      refine List.nodup_append.mpr
        ⟨ih ( List.IsChain.prefix linked start) ( anchored.prefix start), by simp, ?_⟩
      intro other listed again single same
      obtain rfl := List.mem_singleton.mp single
      subst same
      obtain ⟨before, between, rfl⟩ := List.append_of_mem listed
      have earlier : before ++ [other] <+: before ++ other :: between ++ [other] := by
        simp [List.append_assoc, List.prefix_append_right_inj]
      have same := HashChain.eq_of_ends injective ( List.IsChain.prefix linked earlier) linked
        ( anchored.prefix earlier) anchored (by cases before <;> simp)
        (by rw [List.getLast?_concat, List.getLast?_concat])
      have lengths := congrArg List.length same
      simp at lengths

/-- An anchored chain's records link in one order only: each is the only one of them that names
the one before it.
-/
theorem HashChain.eq_of_perm (linked : HashChain digest prev chain)
    (linked' : HashChain digest prev other) (anchored : Anchored digest prev chain)
    (perm : other.Perm chain)
    : other = chain := by
  have onward (first : Record) (rest rest' : List Record) (linked : HashChain digest prev (first :: rest))
      (linked' : HashChain digest prev (first :: rest')) (perm : rest'.Perm rest)
      (distinct : (first :: rest).Nodup) : rest' = rest := by
    induction rest generalizing first rest' with
    | nil => exact perm.eq_nil
    | cons next rest ih =>
        cases rest' with
        | nil => cases perm.length_eq
        | cons next' rest' =>
            obtain ⟨link, linked⟩ := List.isChain_cons_cons.mp linked
            obtain ⟨link', linked'⟩ := List.isChain_cons_cons.mp linked'
            obtain ⟨fresh, distinct⟩ := List.nodup_cons.mp distinct
            have same : next' = next := by
              rcases List.mem_cons.mp (perm.mem_iff.mp List.mem_cons_self) with same | later
              · exact same
              · obtain ⟨earlier, among, names⟩ := HashChain.exists_prev linked later
                obtain rfl := injective (Option.some.inj (link'.symm.trans names))
                exact absurd among fresh
            subst same
            rw [ih next' rest' linked linked' ((List.perm_cons _).mp perm) distinct]
  cases chain with
  | nil => exact perm.eq_nil
  | cons first rest =>
      obtain ⟨before, after, rfl⟩ := List.append_of_mem (perm.mem_iff.mpr List.mem_cons_self)
      have none_ : before = [] := by
        by_contra some_
        obtain ⟨earlier, among, names⟩ := linked'.prev_of_append some_
        exact anchored first rfl earlier (perm.mem_iff.mp (List.mem_append_left _ among)) names
      subst none_
      rw [List.nil_append] at linked' perm ⊢
      rw [onward first rest after linked linked' ((List.perm_cons _).mp perm)
        (linked.nodup injective anchored)]

end Injective

end Dagron.Library
